import Mathlib.Data.List.Forall2
import Mathpad.NamedFunction
import Mathpad.Number.Arithmetic
import Mathpad.Proofs.Outcome

/-!
# Values do not depend on tags

Arithmetic hands on the tags of its operands, but it never looks at them: numbers that differ
in their tags only give results that differ in their tags only.
-/
set_option autoImplicit false

namespace Mathpad.Number

/-- Two numbers are the same, apart from the tags of decimals. -/
inductive Alike : Number → Number → Prop
  | ratio (n d : Int) : Alike (.ratio n d) (.ratio n d)
  | decimal (v : Decimal) (a b : Accuracy) : Alike (.decimal v a) (.decimal v b)

variable {x x' y y' z : Number}

theorem Alike.refl (x : Number) : Alike x x := by
  cases x with
  | ratio n d => exact .ratio n d
  | decimal v a => exact .decimal v a a

theorem Alike.toDecimal (h : Alike x x') : x.toDecimal = x'.toDecimal := by
  cases h <;> rfl

theorem Alike.whole? (h : Alike x x') : x.whole? = x'.whole? := by
  cases h <;> rfl

theorem Alike.isZero (h : Alike x x') : x.isZero = x'.isZero := by
  cases h <;> rfl

theorem Alike.isNegative (h : Alike x x') : x.isNegative = x'.isNegative := by
  cases h <;> rfl

/-- Where the first computation has a result, the second one has a result like it. -/
def GivesAlike (o o' : Outcome Number) : Prop := ∀ z, o = .ok z → ∃ z', o' = .ok z' ∧ Alike z z'

theorem GivesAlike.refl (o : Outcome Number) : GivesAlike o o := fun z hz => ⟨z, hz, .refl z⟩

theorem givesAlike_ok (h : Alike x x') : GivesAlike (.ok x) (.ok x') := by
  intro z hz
  cases hz
  exact ⟨x', rfl, h⟩

/-- Steps that do not look at tags make up a computation that does not. -/
theorem GivesAlike.bind {o o' : Outcome Number} {k k' : Number → Outcome Number}
    (ho : GivesAlike o o') (hk : ∀ z z', Alike z z' → GivesAlike (k z) (k' z')) :
    GivesAlike (o >>= k) (o' >>= k') := by
  intro w hw
  obtain ⟨z, hz, hw⟩ := Outcome.bind_eq_ok.mp hw
  obtain ⟨z', hz', hlike⟩ := ho z hz
  rw [hz', ok_bind]
  exact hk z z' hlike w hw

/-- A computation whose result gets a tag. -/
theorem givesAlike_tag (o : Outcome Decimal) (a b : Accuracy) :
    GivesAlike (do return .decimal (← o) a) (do return .decimal (← o) b) := by
  cases o with
  | ok v => exact givesAlike_ok (.decimal v a b)
  | error f => exact .refl _

/-! ## Arithmetic -/

/-- An operation on two numbers passes tags on, and does not look at them. -/
theorem combine_alike (ratios : Int → Int → Int → Int → Number)
    (decimals : Decimal → Decimal → Outcome Decimal) (hx : Alike x x') (hy : Alike y y') :
    GivesAlike (combine ratios decimals x y) (combine ratios decimals x' y') := by
  -- the tags are only combined when the decimals are there
  have hmixed : ∀ v a b w c d, GivesAlike
      (do return .decimal (← decimals v w) (Accuracy.combine a c))
      (do return .decimal (← decimals v w) (Accuracy.combine b d)) := fun v a b w c d =>
    givesAlike_tag (decimals v w) _ _
  cases hx with
  | ratio n d =>
    cases hy with
    | ratio m e => exact .refl _
    | decimal w a b =>
      change GivesAlike (toDecimal (.ratio n d) >>= fun v => _) (toDecimal (.ratio n d) >>= fun v => _)
      cases toDecimal (.ratio n d) with
      | ok v => exact hmixed v _ _ w a b
      | error f => exact .refl _
  | decimal v a b =>
    cases hy with
    | ratio m e =>
      change GivesAlike (toDecimal (.ratio m e) >>= fun w => _) (toDecimal (.ratio m e) >>= fun w => _)
      cases toDecimal (.ratio m e) with
      | ok w => exact hmixed v a b w _ _
      | error f => exact .refl _
    | decimal w c d => exact hmixed v a b w c d

/-- A quotient does not look at tags. -/
theorem div_alike (hx : Alike x x') (hy : Alike y y') : GivesAlike (x.div y) (x'.div y') := by
  unfold div
  rw [← hy.isZero]
  split
  · exact .refl _
  · exact combine_alike _ _ hx hy

/-- A natural power does not look at the tag of its base. -/
theorem powNat_alike (hx : Alike x x') (n : Nat) : GivesAlike (x.powNat n) (x'.powNat n) := by
  cases hx with
  | ratio m d => exact .refl _
  | decimal v a b => exact givesAlike_tag (v.power (Decimal.ofNat n)) a b

/-- A whole power does not look at the tag of its base. -/
theorem powInt_alike (hx : Alike x x') (n : Int) : GivesAlike (x.powInt n) (x'.powInt n) := by
  unfold powInt
  by_cases hneg : n < 0
  · rw [if_pos hneg, if_pos hneg, ← hx.isZero]
    by_cases hzero : x.isZero = true
    · rw [if_pos hzero, if_pos hzero]
      exact .refl _
    · rw [if_neg hzero, if_neg hzero]
      exact (div_alike (.refl one) hx).bind fun z z' hz => powNat_alike hz _
  · rw [if_neg hneg, if_neg hneg]
    by_cases hzero : n = 0
    · rw [if_pos hzero, if_pos hzero]
      cases hx with
      | ratio m d => exact .refl _
      | decimal v a b => exact givesAlike_ok (.decimal _ a b)
    · rw [if_neg hzero, if_neg hzero]
      exact powNat_alike hx _

/-- A root is searched for without regard to tags. -/
theorem root_alike (hx : Alike x x') (degree : Nat) :
    GivesAlike (x.root degree) (x'.root degree) := by
  cases hx with
  | ratio n d => exact .refl _
  | decimal v a b => exact .refl _

theorem simplify_alike (hx : Alike x x') : GivesAlike x.simplify x'.simplify := by
  cases hx with
  | ratio n d => exact .refl _
  | decimal v a b => exact givesAlike_ok (.decimal v a b)

/-- A power does not look at tags, except to pass them on: whether the base is raised exactly
depends on the two values. -/
theorem pow_alike (hx : Alike x x') (hy : Alike y y') : GivesAlike (x.pow y) (x'.pow y') := by
  unfold pow
  rw [← hy.whole?]
  cases y.whole? with
  | error f => exact .refl _
  | ok whole =>
    cases whole with
    | some n => exact powInt_alike hx n
    | none =>
      refine (simplify_alike hy).bind fun z z' hz => ?_
      cases hz with
      | ratio n d => exact (powInt_alike hx n).bind fun w w' hw => root_alike hw _
      | decimal v a b =>
        dsimp only
        rw [← hx.isNegative, ← hx.toDecimal]
        exact .refl _

/-! ## Functions -/

/-- Sine and cosine do not look at the tag of an angle. -/
theorem wave_alike (hx : Alike x x') (cosine : Bool) (settings : EvalSettings) :
    NamedFunction.wave cosine settings x = NamedFunction.wave cosine settings x' := by
  unfold NamedFunction.wave
  rw [hx.toDecimal]

theorem commonDivisor_alike (hx : Alike x x') (hy : Alike y y') :
    NamedFunction.commonDivisor x y = NamedFunction.commonDivisor x' y' := by
  unfold NamedFunction.commonDivisor
  rw [hx.whole?, hy.whole?]

/-- No function looks at the tags of its arguments, nor passes them on. -/
theorem eval_alike (f : NamedFunction) (settings : EvalSettings) {xs ys : List Number}
    (h : List.Forall₂ Alike xs ys) : f.eval xs settings = f.eval ys settings := by
  have hlen := h.length_eq
  match xs, ys, h with
  | [], [], _ => rfl
  | [x], [y], .cons hx .nil =>
    cases f with
    | sine => exact wave_alike hx false settings
    | cosine => exact wave_alike hx true settings
    | gcd => rfl
  | [x, x'], [y, y'], .cons hx (.cons hy .nil) =>
    cases f with
    | gcd => exact commonDivisor_alike hx hy
    | _ => rfl
  | x :: x' :: x'' :: xs, y :: y' :: y'' :: ys, _ =>
    cases f <;> simp only [NamedFunction.eval, hlen]

end Mathpad.Number
