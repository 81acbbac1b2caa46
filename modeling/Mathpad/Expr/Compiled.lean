import Mathpad.Expr.Basic

/-
Expressions prepared for repeated evaluation.

Compiling turns an expression into a function of the value of one variable, its parameter, with the
settings fixed. Its shape is gone afterwards; what is left can be applied any number of times, which
is what plotting needs.
-/
set_option autoImplicit false

namespace Mathpad

namespace Expr

mutual

/-- The value of an expression as a function of its parameter. Any other variable has no value. -/
def compile (parameter : Option String) (settings : EvalSettings) :
    Expr → Number → Outcome Number
  | number x => fun _ => .ok x
  | var name =>
    if parameter = some name then fun value => .ok value
    else fun _ => failMaths .missingVariable
  | sqrt inner =>
    let f := inner.compile parameter settings
    fun value => do (← f value).sqrt
  | parentheses inner => inner.compile parameter settings
  | power base exponent =>
    let f := base.compile parameter settings
    let g := exponent.compile parameter settings
    fun value => do
      let x ← f value
      x.pow (← g value)
  | binary op left right =>
    let f := left.compile parameter settings
    let g := right.compile parameter settings
    fun value => do
      let x ← f value
      op.apply x (← g value)
  | call f args =>
    let gs := compileAll parameter settings args
    fun value => do f.eval (← gs value) settings

/-- The values of expressions, in their order, as a function of the parameter. -/
def compileAll (parameter : Option String) (settings : EvalSettings) :
    List Expr → Number → Outcome (List Number)
  | [] => fun _ => .ok []
  | e :: es =>
    let f := e.compile parameter settings
    let fs := compileAll parameter settings es
    fun value => do
      let x ← f value
      return x :: (← fs value)

end

end Expr

/-- A compiled expression and the name of its parameter, if it has one. -/
structure Compiled where
  parameter : Option String
  apply : Number → Outcome Number

namespace Compiled

/-- Compiles an expression. -/
def ofExpr (e : Expr) (parameter : Option String) (settings : EvalSettings) : Compiled :=
  ⟨parameter, e.compile parameter settings⟩

/-- The value without a parameter. With one, the value is not determined. -/
def eval (c : Compiled) : Outcome Number :=
  if c.parameter.isSome then failMaths .missingVariable else c.apply Number.zero

/-- A compiled expression together with the value of its parameter. -/
structure Applied where
  compiled : Compiled
  value : Number

/-- Fixes the value of the parameter, which must be the variable meant. -/
def substitute (c : Compiled) (name : String) (value : Number) : Outcome Applied :=
  if c.parameter = some name then .ok ⟨c, value⟩
  else .error (.breach (.notTheParameter name c.parameter))

namespace Applied

/-- The number that an applied expression evaluates to. -/
def eval (a : Applied) : Outcome Number := a.compiled.apply a.value

/-- The parameter is taken, so no variable is left to be given a value. -/
def substitute (_ : Applied) (_ : String) (_ : Number) : Outcome Applied :=
  .error (.breach .substitutedTwice)

end Applied
end Compiled
end Mathpad
