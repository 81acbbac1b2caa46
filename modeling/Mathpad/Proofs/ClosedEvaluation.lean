import Mathpad.Proofs.ClosedReduction
import Mathpad.Term.OfExpr

/-!
# Evaluating and simplifying agree

An expression of fractions in lowest terms is evaluated from the leaves up, and simplified
as a term in which differences and quotients have become sums and products. Both ways lead
to the rational number it stands for, and both fail to get there if they divide by zero.
-/
set_option autoImplicit false

namespace Mathpad

open Term

/-- A fraction in lowest terms, with a positive denominator. -/
def Number.InLowestTerms : Number → Prop
  | .ratio n d => 0 < d ∧ Int.gcd n d = 1
  | .decimal .. => False

/-- A fraction in lowest terms is that of a rational number. -/
theorem Number.InLowestTerms.exists_ofRat {x : Number} (h : x.InLowestTerms) :
    ∃ q, x = ofRat q := by
  cases x with
  | ratio n d =>
    exact ⟨n / d, ratio_eq_ofRat h.1 h.2⟩
  | decimal v a => exact absurd h id

/-! ## The four operations -/

namespace BinaryOp

/-- What the operation makes of two values. -/
def value? : BinaryOp → Option ℚ → Option ℚ → Option ℚ
  | add, x, y => Option.map₂ (· + ·) x y
  | subtract, x, y => Option.map₂ (· - ·) x y
  | multiply, x, y => Option.map₂ (· * ·) x y
  | divide, x, y => do
    let p ← x
    let q ← y
    if q = 0 then none else some (p / q)

theorem value?_none_left (op : BinaryOp) (y : Option ℚ) : op.value? none y = none := by
  cases op <;> rfl

theorem value?_none_right (op : BinaryOp) (x : Option ℚ) : op.value? x none = none := by
  cases op <;> cases x <;> rfl

/-- The operation on fractions gives the fraction it should, or stops. -/
theorem apply_ofRat (op : BinaryOp) (p q : ℚ) :
    Meets (op.apply (.ofRat p) (.ofRat q))
      (fun x => ∃ r, op.value? (some p) (some q) = some r ∧ x = .ofRat r)
      (Stopped (op.value? (some p) (some q))) := by
  have hyields : ∀ {o : Outcome Number} {r : ℚ}, Number.Yields o r →
      op.value? (some p) (some q) = some r →
      Meets o (fun x => ∃ r, op.value? (some p) (some q) = some r ∧ x = .ofRat r)
        (Stopped (op.value? (some p) (some q))) := by
    intro o r ho hr
    exact ho.mono (fun x hx => ⟨r, hr, hx.1⟩) fun e he => Or.inl he
  cases op with
  | add => exact hyields (Number.add_ofRat p q) rfl
  | subtract => exact hyields (Number.sub_ofRat p q) rfl
  | multiply => exact hyields (Number.mul_ofRat p q) rfl
  | divide =>
    by_cases hq : q = 0
    · subst hq
      exact Or.inr ⟨rfl, rfl⟩
    · exact hyields (Number.div_ofRat p hq) (if_neg hq)

end BinaryOp

/-! ## Expressions -/

namespace Expr

/-- Closed rational arithmetic: fractions in lowest terms, the four operations, parentheses,
and powers whose exponent evaluates to a whole number. -/
def IsClosedArithmetic (settings : EvalSettings) : Expr → Prop
  | number x => x.InLowestTerms
  | parentheses inner => inner.IsClosedArithmetic settings
  | power base exponent =>
    base.IsClosedArithmetic settings ∧ exponent.IsClosedArithmetic settings ∧
      ∃ x n, exponent.eval settings = .ok x ∧ x.whole? = .ok (some n)
  | binary _ left right =>
    left.IsClosedArithmetic settings ∧ right.IsClosedArithmetic settings
  | _ => False

/-- The value of an operation on two terms. -/
theorem value?_pair (op : Operation) (t u : Term) :
    (op.apply [t, u]).value? = Option.map₂ op.act t.value? u.value? := by
  rw [value?_apply]
  simp only [List.map_cons, List.map_nil, Operation.total?_cons, Operation.total?_nil,
    Operation.map₂_unit_right]

/-- The term of an operation has the value that the operation makes of its operands. -/
theorem value?_binary (op : BinaryOp) (left right : Expr) :
    (binary op left right).toTerm.value? = op.value? left.toTerm.value? right.toTerm.value? := by
  have hminus : (Term.number Number.minusOne).value? = some ((-1 : Int) : ℚ) :=
    value?_ofRat (-1 : Int)
  cases op with
  | add => exact value?_pair .sum _ _
  | subtract =>
    refine (value?_pair .sum _ _).trans ?_
    -- a difference is a sum with minus one times the right operand
    have hnegate : right.toTerm.negate.value?
        = Option.map₂ (· * ·) (some ((-1 : Int) : ℚ)) right.toTerm.value? := by
      rw [← hminus]
      exact value?_pair .product _ _
    rw [hnegate]
    cases left.toTerm.value? with
    | none => rfl
    | some p =>
      cases right.toTerm.value? with
      | none => rfl
      | some q =>
        change some (p + ((-1 : Int) : ℚ) * q) = some (p - q)
        push_cast
        ring_nf
  | multiply => exact value?_pair .product _ _
  | divide =>
    refine (value?_pair .product _ _).trans ?_
    -- a quotient is a product with the power minus one of the right operand
    have hreciprocal : right.toTerm.reciprocal.value?
        = power? right.toTerm.value? (some ((-1 : Int) : ℚ)) := by
      rw [← hminus]
      rfl
    rw [hreciprocal]
    cases left.toTerm.value? with
    | none => rfl
    | some p =>
      cases right.toTerm.value? with
      | none => rfl
      | some q =>
        by_cases hq : q = 0
        · subst hq
          rw [power?_zero (by omega)]
          rfl
        · rw [power?_intCast (Or.inr hq), zpow_neg_one]
          change some (p * q⁻¹) = if q = 0 then none else some (p / q)
          rw [if_neg hq, div_eq_mul_inv]

/-- The term of an operator is closed if the terms of both operands are. -/
theorem isClosed_binary (op : BinaryOp) {left right : Expr} (hl : left.toTerm.IsClosed)
    (hr : right.toTerm.IsClosed) : (binary op left right).toTerm.IsClosed := by
  have hminus : (Term.number Number.minusOne).IsClosed := ⟨-1, rfl⟩
  have hwhole : (Term.number Number.minusOne).value? = some ((-1 : Int) : ℚ) :=
    value?_ofRat (-1 : Int)
  cases op with
  | add => exact ⟨hl, hr, trivial⟩
  | subtract => exact ⟨hl, ⟨hminus, hr, trivial⟩, trivial⟩
  | multiply => exact ⟨hl, hr, trivial⟩
  | divide => exact ⟨hl, ⟨hr, hminus, -1, hwhole⟩, trivial⟩

/-- What evaluation has to give for a term of this value. -/
def Evaluates (value : Option ℚ) (o : Outcome Number) : Prop :=
  Meets o (fun x => ∃ q, value = some q ∧ x = .ofRat q) (Stopped value)

/-- An operator evaluates to the value of its term, if both operands do. -/
theorem evaluates_binary {settings : EvalSettings} (op : BinaryOp) {left right : Expr}
    (hl : Evaluates left.toTerm.value? (left.eval settings))
    (hr : Evaluates right.toTerm.value? (right.eval settings)) :
    Evaluates (binary op left right).toTerm.value? ((binary op left right).eval settings) := by
  rw [value?_binary, Expr.eval]
  refine (hl.mono (fun _ h => h) fun e he => he.of_part fun hnone => ?_).bind fun x hx => ?_
  · rw [hnone, BinaryOp.value?_none_left]
  refine (hr.mono (fun _ h => h) fun e he => he.of_part fun hnone => ?_).bind fun y hy => ?_
  · rw [hnone, BinaryOp.value?_none_right]
  obtain ⟨p, hp, rfl⟩ := hx
  obtain ⟨q, hq, rfl⟩ := hy
  rw [hp, hq]
  exact op.apply_ofRat p q

/-- The exponent of a power has to evaluate to a whole number. -/
theorem evaluates_power {settings : EvalSettings} {base exponent : Expr} {x : Number} {n : Int}
    (hbase : Evaluates base.toTerm.value? (base.eval settings))
    (hexponent : Evaluates exponent.toTerm.value? (exponent.eval settings))
    (hx : exponent.eval settings = .ok x) (hn : x.whole? = .ok (some n)) :
    exponent.toTerm.value? = some (n : ℚ) ∧
      Evaluates (power base exponent).toTerm.value? ((power base exponent).eval settings) := by
  obtain ⟨q, hq, rfl⟩ := hexponent.of_ok hx
  -- the number that the exponent evaluates to is the value of its term
  obtain rfl : q = n := by
    rw [Number.whole?_ofRat] at hn
    by_cases hden : q.den = 1
    · rw [if_pos hden] at hn
      rw [← Option.some.inj (Except.ok.inj hn)]
      exact (Rat.coe_int_num_of_den_eq_one hden).symm
    · rw [if_neg hden] at hn
      cases Except.ok.inj hn
  refine ⟨hq, ?_⟩
  have hvalue : (power base exponent).toTerm.value?
      = power? base.toTerm.value? (some (n : ℚ)) := by
    rw [← hq]
    rfl
  rw [hvalue, Expr.eval, hx]
  refine (hbase.mono (fun _ h => h) fun e he => he.of_part fun hnone => ?_).bind fun y hy => ?_
  · rw [hnone]
    rfl
  obtain ⟨p, hp, rfl⟩ := hy
  rw [hp, ok_bind, Number.pow_ofRat]
  exact powInt_stops p n

/-- Evaluation gives the value of the term that the expression stands for. -/
theorem IsClosedArithmetic.evaluates {settings : EvalSettings} {e : Expr}
    (h : e.IsClosedArithmetic settings) :
    e.toTerm.IsClosed ∧ Evaluates e.toTerm.value? (e.eval settings) := by
  induction e using IsClosedArithmetic.induct with
  | case1 x =>
    obtain ⟨q, rfl⟩ := Number.InLowestTerms.exists_ofRat h
    exact ⟨⟨q, rfl⟩, q, value?_ofRat q, rfl⟩
  | case2 inner ih => exact ih h
  | case3 base exponent ihb ihe =>
    obtain ⟨hb, he, x, n, hx, hn⟩ := h
    obtain ⟨hbclosed, hbase⟩ := ihb hb
    obtain ⟨heclosed, hexponent⟩ := ihe he
    obtain ⟨hvalue, hpower⟩ := evaluates_power hbase hexponent hx hn
    exact ⟨⟨hbclosed, heclosed, n, hvalue⟩, hpower⟩
  | case4 op left right ihl ihr =>
    obtain ⟨hlclosed, hleft⟩ := ihl h.1
    obtain ⟨hrclosed, hright⟩ := ihr h.2
    exact ⟨isClosed_binary op hlclosed hrclosed, evaluates_binary op hleft hright⟩
  | case5 e hnumber hparen hpower hbinary =>
    rw [IsClosedArithmetic.eq_5 settings e hnumber hparen hpower hbinary] at h
    exact absurd h id

/-- Simplification does too. -/
theorem simplify_closed {t : Term} (ht : t.IsClosed) :
    Meets t.simplify (GivesValue t) (Stopped t.value?) := by
  have hflat := flatten_sameRational ht
  refine ((sort_sameRational hflat.isClosed).mono (fun _ h => h) fun _ h => Or.inl h).bind
    fun sorted hsorted => ?_
  have hvalue : sorted.value? = t.value? := hsorted.value?_eq.trans hflat.value?_eq
  refine (reduce_closed hsorted.isClosed).mono (fun r hr => ?_) fun e he => ?_
  · obtain ⟨q, hq, hr⟩ := hr
    exact ⟨q, hvalue.symm.trans hq, hr⟩
  · exact he.of_part fun hnone => hvalue.symm.trans hnone

/-- In closed rational arithmetic, evaluation and simplification arrive at the same number;
and if neither overflows, both divide by zero or none of them does. -/
theorem eval_eq_simplify (settings : EvalSettings) (e : Expr)
    (he : e.IsClosedArithmetic settings) :
    (∀ v r, e.eval settings = .ok v → e.toTerm.simplify = .ok r → r.term = .number v) ∧
      (e.eval settings ≠ .error (.maths .overflow) →
        e.toTerm.simplify ≠ .error (.maths .overflow) →
        (e.eval settings = .error (.maths .divisionByZero) ↔
          e.toTerm.simplify = .error (.maths .divisionByZero))) := by
  -- both ways are compared with the value of the term, which neither of them changes
  obtain ⟨hclosed, heval⟩ := he.evaluates
  have hsimplify := simplify_closed hclosed
  constructor
  · intro v r hv hr
    obtain ⟨q, hq, rfl⟩ := heval.of_ok hv
    obtain ⟨q', hq', hterm⟩ := hsimplify.of_ok hr
    obtain rfl : q = q' := Option.some.inj (hq.symm.trans hq')
    exact hterm
  · intro hevalNe hsimplifyNe
    exact (divisionByZero_iff heval hevalNe).trans (divisionByZero_iff hsimplify hsimplifyNe).symm

/-- `(1/2 + 3)^(4 - 6) / 7` is `4/343`. -/
theorem eval_eq_simplify_quotient :
    let settings : EvalSettings := {}
    let e := binary .divide
      (power (parentheses (binary .add (number (.ratio 1 2)) (number (.ratio 3 1))))
        (binary .subtract (number (.ratio 4 1)) (number (.ratio 6 1))))
      (number (.ratio 7 1))
    e.IsClosedArithmetic settings ∧ e.eval settings = .ok (.ratio 4 343) ∧
      ∀ r, e.toTerm.simplify = .ok r → r.term = .number (.ratio 4 343) := by
  intro settings e
  have hbase : (binary .add (number (.ratio 1 2)) (number (.ratio 3 1))).IsClosedArithmetic
      settings := ⟨⟨by decide, by decide⟩, by decide, by decide⟩
  have hexponent : (binary .subtract (number (.ratio 4 1))
      (number (.ratio 6 1))).IsClosedArithmetic settings :=
    ⟨⟨by decide, by decide⟩, by decide, by decide⟩
  have he : e.IsClosedArithmetic settings :=
    ⟨⟨hbase, hexponent, .ratio (-2) 1, -2, rfl, rfl⟩, by decide, by decide⟩
  have heval : e.eval settings = .ok (.ratio 4 343) := rfl
  exact ⟨he, heval, fun r hr => (eval_eq_simplify settings e he).1 _ r heval hr⟩

end Expr
end Mathpad
