import Mathpad.Number.Nearby
import Mathpad.Proofs.Representable
import Mathpad.Proofs.TypedExpressions

/-!
# Values of expressions that were read

An expression that was read from a text has a value, or there is an arithmetical reason why
it has none; in floating point the reason can also be an infinite angle. A fraction on the way
is in lowest terms with both parts in a word, so the question whether it is whole has an
answer, and so has the question for its decimal when the value is shown.
-/
set_option autoImplicit false

namespace Mathpad

namespace Number

/-- An integer is in range as a number, or overflows: one beyond the words becomes a decimal. -/
theorem ofInt_inRange (n : Int) : Meets (ofInt n) InRange Fault.IsOverflow := by
  refine (word_meets n).bind ?_
  rintro _ ⟨rfl, hn⟩
  exact .ratio ⟨by rwa [Rat.num_intCast], rfl⟩

/-- A literal is in lowest terms. -/
theorem Literal.lowest {x : Number} (h : x.Literal) : x.Lowest := by
  cases x with
  | ratio n d =>
    obtain ⟨hn, rfl⟩ := h
    exact .ratio (q := n) ⟨hn, rfl⟩
  | decimal v a => exact .decimal v a

/-! ## Showing -/

/-- Every number has a text as a decimal. -/
theorem exists_decimalText {x : Number} (h : x.Lowest) :
    ∃ s, x.decimalText (some shownDigits) = .ok s := by
  obtain ⟨v, hv⟩ : ∃ v, x.toDecimal = .ok v := by
    cases h with
    | ratio hq => exact exists_toDecimal hq
    | decimal v a => exact ⟨v, rfl⟩
  refine ⟨String.ofList (v.round shownDigits).plain, ?_⟩
  unfold decimalText
  rw [hv]
  rfl

/-- Clearing noise leaves a number in lowest terms. -/
theorem Lowest.denoise {x : Number} (h : x.Lowest) : x.denoise.Lowest := by
  cases h with
  | ratio hq => exact .ratio hq
  | decimal v a =>
    cases a with
    | exact => exact .decimal v .exact
    | approximate => exact .decimal _ .approximate

/-- A decimal that was rounded loses no digits when it is given as a number. -/
theorem ofDecimal_round_inRange (d : Decimal) (a : Accuracy) :
    Meets (ofDecimal (d.round precision) a) InRange Fault.IsOverflow := by
  have hfit := Decimal.round_fit_inRange d
  have hfew := Decimal.fit?_of_digitCount_le
    (Decimal.digitCount_round_le (p := precision) (by decide) d)
  rw [Decimal.fit, hfew] at hfit
  rw [ofDecimal, hfew]
  -- there are no more digits than allowed, so only the size is left to go wrong
  by_cases hlarge : (Decimal.ofNat maxMagnitude).lt
      ((d.round precision).placed.magnitude precision) = true
  · rw [if_pos hlarge]
    exact rfl
  · rw [if_neg hlarge] at hfit ⊢
    exact .decimal hfit a

end Number

/-! ## Functions -/

/-- The faults of evaluation with some settings: arithmetical ones and, in floating point only, an
infinite angle. -/
def EvalSettings.Admits (settings : EvalSettings) (f : Fault) : Prop :=
  f.IsMaths ∨ settings.useFloats = true ∧ f = .mishap .notANumber

/-- Without floating point, every fault of evaluation is one in arithmetic. -/
theorem EvalSettings.Admits.isMaths {settings : EvalSettings} {f : Fault} (h : settings.Admits f)
    (hfloats : settings.useFloats = false) : f.IsMaths := by
  rcases h with h | ⟨htrue, -⟩
  · exact h
  · exact absurd (hfloats.symm.trans htrue) Bool.false_ne_true

/-- A fault in arithmetic is one of evaluation, whatever the settings. -/
theorem Meets.admitted {α : Type} {o : Outcome α} {Q : α → Prop} (h : Meets o Q Fault.IsMaths)
    (settings : EvalSettings) : Meets o Q settings.Admits :=
  h.mono (fun _ hQ => hQ) fun _ => .inl

namespace NamedFunction

/-- In floating point a wave fails only for an infinite angle. -/
theorem waveInFloats_meets (cosine : Bool) (unit : AngleUnit) (v : Decimal) :
    Meets (waveInFloats cosine unit v) (fun _ => True) fun f => f = .mishap .notANumber := by
  -- whatever the angle is in that unit, it is infinite or has a sine and a cosine
  cases unit <;>
  · rw [waveInFloats]
    split
    · exact meets_error.mpr rfl
    · trivial

/-- An angle has a sine and a cosine, unless it has no decimal or is infinite. -/
theorem wave_inRange (cosine : Bool) (settings : EvalSettings) (x : Number) :
    Meets (wave cosine settings x) Number.InRange settings.Admits := by
  unfold wave
  refine (x.toDecimal_isMaths.admitted settings).bind fun v _ => ?_
  have hnumber : ∀ value : Decimal, Meets (do
      return (← Number.ofDecimal (value.round precision) .approximate).denoise)
      Number.InRange settings.Admits := fun value =>
    ((Number.ofDecimal_round_inRange value .approximate).isMaths.admitted settings).bind
      fun y hy => hy.denoise
  by_cases hfloats : settings.useFloats = true
  · rw [if_pos hfloats]
    have hwave := waveInFloats_meets cosine settings.angle v
    refine (hwave.mono (fun _ h => h) fun f hf => ?_).bind fun value _ => hnumber value
    exact .inr ⟨hfloats, hf⟩
  · rw [if_neg hfloats]
    exact hnumber _

/-- A greatest common divisor is in range, or there is a fault in arithmetic. -/
theorem commonDivisor_inRange {x y : Number} (hx : x.Lowest) (hy : y.Lowest) :
    Meets (commonDivisor x y) Number.InRange Fault.IsMaths := by
  unfold commonDivisor
  refine (Number.whole?_meets hx.hasDenominator _).bind fun m _ => ?_
  refine (Number.whole?_meets hy.hasDenominator _).bind fun n _ => ?_
  cases m with
  | none => exact .decimal Decimal.one_inRange .exact
  | some m =>
    cases n with
    | none => exact .decimal Decimal.one_inRange .exact
    | some n => exact (Number.ofInt_inRange _).isMaths

/-- A function has a value for as many arguments as it takes. -/
theorem eval_inRange (f : NamedFunction) {args : List Number} (hlen : args.length = f.arity)
    (h : ∀ x ∈ args, x.Lowest) (settings : EvalSettings) :
    Meets (f.eval args settings) Number.InRange settings.Admits := by
  cases f with
  | sine =>
    obtain ⟨x, rfl⟩ := List.length_eq_one_iff.mp hlen
    exact wave_inRange false settings x
  | cosine =>
    obtain ⟨x, rfl⟩ := List.length_eq_one_iff.mp hlen
    exact wave_inRange true settings x
  | gcd =>
    obtain ⟨x, y, rfl⟩ := List.length_eq_two.mp hlen
    exact (commonDivisor_inRange (h x (by simp)) (h y (by simp))).admitted settings

end NamedFunction

/-! ## Expressions -/

/-- An operator gives a number in range, or a fault in arithmetic. -/
theorem BinaryOp.apply_inRange (op : BinaryOp) {x y : Number} (hx : x.Lowest) (hy : y.Lowest) :
    Meets (op.apply x y) Number.InRange Fault.IsMaths := by
  cases op with
  | add => exact Number.Binary.act_isMaths .add hx hy
  | subtract => exact Number.Binary.act_isMaths .sub hx hy
  | multiply => exact Number.Binary.act_isMaths .mul hx hy
  | divide => exact Number.Binary.act_isMaths .div hx hy

namespace Expr

/-- Operands are evaluated one by one. -/
theorem evalAll_eq_mapM (settings : EvalSettings) (es : List Expr) :
    evalAll settings es = es.mapM (eval settings) := by
  induction es with
  | nil => rfl
  | cons e es ih => rw [evalAll, ih, List.mapM_cons]

/-- What is known of the numbers that stand in an expression is known of its value, if it is known of
every number in range. What may go wrong besides arithmetic is up to the functions. -/
theorem eval_meets {H : Expr → Prop} {P : Number → Prop} {E : Fault → Prop}
    {settings : EvalSettings} (hnumber : ∀ x, H (number x) → P x)
    (hrange : ∀ x : Number, x.InRange → P x) (hlowest : ∀ x : Number, P x → x.Lowest)
    (hmaths : ∀ f : Fault, f.IsMaths → E f)
    (hcall : ∀ f es args, H (call f es) → args.length = es.length → (∀ x ∈ args, x.Lowest) →
      Meets (f.eval args settings) Number.InRange E) {e : Expr} (h : e.Everywhere H) :
    Meets (e.eval settings) P E := by
  have hresult : ∀ {o : Outcome Number}, Meets o Number.InRange Fault.IsMaths → Meets o P E :=
    fun ho => ho.mono hrange hmaths
  induction h with
  | @intro e here inside ih =>
    cases e with
    | number x =>
      rw [eval]
      exact hnumber x here
    | var name =>
      rw [eval]
      exact hmaths _ ⟨_, rfl⟩
    | sqrt inner =>
      rw [eval]
      refine (ih inner (by simp [operands])).bind fun x hx => ?_
      exact hresult (Number.sqrt_isMaths (hlowest x hx))
    | parentheses inner =>
      rw [eval]
      exact ih inner (by simp [operands])
    | power base exponent =>
      rw [eval]
      refine (ih base (by simp [operands])).bind fun x hx => ?_
      refine (ih exponent (by simp [operands])).bind fun y hy => ?_
      exact hresult (Number.Binary.act_isMaths .pow (hlowest x hx) (hlowest y hy))
    | binary op left right =>
      rw [eval]
      refine (ih left (by simp [operands])).bind fun x hx => ?_
      refine (ih right (by simp [operands])).bind fun y hy => ?_
      exact hresult (op.apply_inRange (hlowest x hx) (hlowest y hy))
    | call f args =>
      rw [eval, evalAll_eq_mapM]
      -- there are as many values as arguments
      refine (Meets.mapM (Q := fun _ => P) fun arg harg => ih arg harg).bind fun xs hxs => ?_
      refine (hcall f args xs here hxs.length_eq.symm fun x hx => ?_).mono hrange fun _ hf => hf
      obtain ⟨arg, -, hx⟩ := exists_of_forall₂_right hxs hx
      exact hlowest x hx

/-- An expression that was read has a value, or there is an arithmetical reason why not. -/
theorem Readable.eval_lowest {e : Expr} (h : e.Readable) (settings : EvalSettings) :
    Meets (e.eval settings) Number.Lowest settings.Admits :=
  eval_meets (fun _ => Number.Literal.lowest) (fun _ => Number.InRange.lowest) (fun _ hx => hx)
    (fun _ => .inl) (fun f _ _ here hlen hargs => f.eval_inRange (hlen.trans here) hargs settings) h

end Expr
end Mathpad
