import Mathpad.Expr.Compiled
import Mathpad.Proofs.Rearrangement

/-!
# Compiled expressions

Compiling turns an expression into a function of its parameter. Nothing is lost by it:
applied to a value, the function computes what the expression computes once that value
is written in place of the parameter, and where one of the two fails so does the other,
with the same fault. The faults agree because both sides work out the operands in the
same order and both notice a variable without a value only when they come to it.

The two ways to compile, with a parameter and without one, are the two cases of
`Expr.given`, so that one induction serves both.
-/
set_option autoImplicit false

namespace Mathpad

namespace Expr

/-- An expression whose parameter, if there is one, has been given a value. -/
def given (parameter : Option String) (value : Number) (e : Expr) : Expr :=
  match parameter with
  | none => e
  | some name => substitute name (.number value) e

variable (parameter : Option String) (value : Number)

/-! ## The parameter inside an expression -/

@[simp] theorem given_none (e : Expr) : e.given none value = e := rfl

@[simp] theorem given_some (name : String) (e : Expr) :
    e.given (some name) value = substitute name (.number value) e := rfl

theorem given_number (x : Number) : (number x).given parameter value = number x := by
  cases parameter <;> rfl

/-- A variable gets the value if it is the parameter. -/
theorem given_var (name : String) :
    (var name).given parameter value =
      if parameter = some name then number value else var name := by
  cases parameter with
  | none => rfl
  | some p => simp only [given_some, substitute, Option.some.injEq, @eq_comm _ name]

theorem given_sqrt (e : Expr) :
    (sqrt e).given parameter value = sqrt (e.given parameter value) := by
  cases parameter <;> rfl

theorem given_parentheses (e : Expr) :
    (parentheses e).given parameter value = parentheses (e.given parameter value) := by
  cases parameter <;> rfl

theorem given_power (b e : Expr) :
    (power b e).given parameter value =
      power (b.given parameter value) (e.given parameter value) := by
  cases parameter <;> rfl

theorem given_binary (op : BinaryOp) (a b : Expr) :
    (binary op a b).given parameter value =
      binary op (a.given parameter value) (b.given parameter value) := by
  cases parameter <;> rfl

theorem substituteAll_eq_map (name : String) (replacement : Expr) (es : List Expr) :
    substituteAll name replacement es = es.map (substitute name replacement) := by
  induction es with
  | nil => rfl
  | cons e es ih => rw [substituteAll, ih, List.map_cons]

/-- The parameter gets its value in all arguments. -/
theorem given_call (f : NamedFunction) (es : List Expr) :
    (call f es).given parameter value = call f (es.map (given parameter value)) := by
  cases parameter with
  | none => rw [given_none, show given none value = id from rfl, List.map_id]
  | some name => rw [given_some, substitute, substituteAll_eq_map]; rfl

/-! ## Compiling -/

variable (settings : EvalSettings)

/-- Arguments that compile one by one compile together. -/
theorem compileAll_eq_evalAll {es : List Expr}
    (h : ∀ e ∈ es,
      e.compile parameter settings value = (e.given parameter value).eval settings) :
    compileAll parameter settings es value =
      evalAll settings (es.map (given parameter value)) := by
  induction es with
  | nil => rfl
  | cons e es ih =>
    have hhead := h e (by simp)
    have htail := ih fun u hu => h u (by simp [hu])
    show (do
        let x ← e.compile parameter settings value
        return x :: (← compileAll parameter settings es value)) = _
    rw [hhead, htail]
    rfl

/-- A compiled expression computes what the expression with its parameter replaced computes. -/
theorem compile_eq_eval_given (e : Expr) :
    e.compile parameter settings value = (e.given parameter value).eval settings := by
  -- in each case the two sides make the same steps, on parts that agree by induction
  induction e using parts_induction with
  | number x => rw [given_number]; rfl
  | var name =>
    rw [given_var, compile]
    by_cases h : parameter = some name
    · rw [if_pos h, if_pos h]; rfl
    · rw [if_neg h, if_neg h]; rfl
  | sqrt e ih => rw [given_sqrt, eval, ← ih]; rfl
  | parentheses e ih => rw [given_parentheses, eval, ← ih]; rfl
  | power b e ihb ihe => rw [given_power, eval, ← ihb, ← ihe]; rfl
  | binary op a b iha ihb => rw [given_binary, eval, ← iha, ← ihb]; rfl
  | call f es ih =>
    rw [given_call, eval, ← compileAll_eq_evalAll parameter value settings ih]
    rfl

end Expr

namespace Compiled

/-- A compiled expression agrees with the expression it was made from: applied to a value it
gives the number, or reports the fault, of the expression with that value substituted for the
parameter, and without a parameter it evaluates as the expression does. -/
theorem ofExpr_agrees (e : Expr) (settings : EvalSettings) :
    (∀ name value, (ofExpr e (some name) settings).apply value =
      (Expr.substitute name (.number value) e).eval settings) ∧
    (ofExpr e none settings).eval = e.eval settings := by
  constructor
  · intro name value
    exact e.compile_eq_eval_given (some name) value settings
  · show e.compile none settings Number.zero = e.eval settings
    rw [e.compile_eq_eval_given, Expr.given_none]

/-- Fixing the parameter of a compiled expression and evaluating is substituting and evaluating;
no other variable can be fixed. -/
theorem substitute_ofExpr (e : Expr) (settings : EvalSettings) (name other : String)
    (value : Number) :
    Meets ((ofExpr e (some name) settings).substitute other value)
      (fun a => other = name ∧ a.eval = (Expr.substitute name (.number value) e).eval settings)
      (fun f => other ≠ name ∧ f = .breach (.notTheParameter other (some name))) := by
  unfold substitute
  by_cases h : other = name
  · have hname : (ofExpr e (some name) settings).parameter = some other := congrArg some h.symm
    rw [if_pos hname]
    exact ⟨h, e.compile_eq_eval_given (some name) value settings⟩
  · have hname : (ofExpr e (some name) settings).parameter ≠ some other := by
      intro hp
      exact h (Option.some.inj hp).symm
    rw [if_neg hname]
    exact ⟨h, rfl⟩

end Compiled
end Mathpad
