import Mathlib.Logic.Relation
import Mathpad.Proofs.Everywhere
import Mathpad.Proofs.Faults

/-!
# How far an approximation spreads

What is computed from an approximation is one itself, through all of arithmetic and any number of
operations (`Expr.eval_approximate`). It stops in two places. A greatest common divisor is a matter
of whole numbers and exact, and a power with a whole exponent is as accurate as its base, whatever
the exponent was computed from (`Expr.eval_loses_tag`).
-/
set_option autoImplicit false

namespace Mathpad

/-- What is combined with an approximation is one. -/
theorem Accuracy.combine_eq_approximate {a b : Accuracy} (h : a = .approximate ∨ b = .approximate) :
    a.combine b = .approximate := by
  rcases h with rfl | rfl
  · rfl
  · cases a <;> rfl

/-! ## Arithmetic -/

namespace Number

/-- The number is tagged as an approximation. -/
def IsApproximate (x : Number) : Prop := x.accuracy = .approximate

variable {x y : Number}

theorem isApproximate_iff : x.IsApproximate ↔ ∃ v, x = .decimal v .approximate := by
  cases x with
  | ratio n d => simp [IsApproximate, accuracy]
  | decimal v a => simp [IsApproximate, accuracy]

theorem IsApproximate.denoise (h : x.IsApproximate) : x.denoise.IsApproximate := by
  obtain ⟨v, rfl⟩ := isApproximate_iff.mp h
  rfl

/-! Sums, products and quotients are as accurate as both of their operands, and negation and powers
with a whole exponent leave the accuracy as it is. -/

/-- Reducing a fraction does not change a tag. -/
theorem simplify_accuracy (x : Number) :
    Meets x.simplify (fun z => z.accuracy = x.accuracy) fun _ => True := by
  cases x with
  | ratio n d => exact .after fun _ => .after fun _ => rfl
  | decimal v a => rfl

/-- An opposite has the tag of the number. -/
theorem neg_accuracy (x : Number) :
    Meets x.neg (fun z => z.accuracy = x.accuracy) fun _ => True := by
  cases x with
  | ratio n d => exact simplify_accuracy (.ratio (-n) d)
  | decimal v a => rfl

/-- An operation on two numbers has the tags of both, provided that its results on fractions are
exact. -/
theorem combine_accuracy {ratios : Int → Int → Int → Int → Number}
    {decimals : Decimal → Decimal → Outcome Decimal} (x y : Number)
    (hratios : ∀ a b c d, (ratios a b c d).accuracy = .exact) :
    Meets (combine ratios decimals x y)
      (fun z => z.accuracy = x.accuracy.combine y.accuracy) fun _ => True := by
  -- two fractions are exact, and a decimal on either side takes the other path
  have hmixed : Meets (do
      let v ← x.toDecimal
      let w ← y.toDecimal
      return Number.decimal (← decimals v w) (x.accuracy.combine y.accuracy))
      (fun z => z.accuracy = x.accuracy.combine y.accuracy) fun _ => True :=
    .after fun _ => .after fun _ => .after fun _ => rfl
  cases x with
  | ratio a b =>
    cases y with
    | ratio c d => exact (simplify_accuracy _).imp fun z hz => hz.trans (hratios a b c d)
    | decimal w k => exact hmixed
  | decimal v k => exact hmixed

/-- A sum is exact if and only if both summands are. -/
theorem add_accuracy (x y : Number) :
    Meets (x.add y) (fun z => z.accuracy = x.accuracy.combine y.accuracy) fun _ => True :=
  combine_accuracy x y fun _ _ _ _ => rfl

/-- A difference is exact if and only if both numbers are. -/
theorem sub_accuracy (x y : Number) :
    Meets (x.sub y) (fun z => z.accuracy = x.accuracy.combine y.accuracy) fun _ => True :=
  (neg_accuracy y).bind fun z hz => hz ▸ add_accuracy x z

/-- A product is exact if and only if both factors are. -/
theorem mul_accuracy (x y : Number) :
    Meets (x.mul y) (fun z => z.accuracy = x.accuracy.combine y.accuracy) fun _ => True :=
  combine_accuracy x y fun _ _ _ _ => rfl

/-- A quotient is exact if and only if both numbers are. -/
theorem div_accuracy (x y : Number) :
    Meets (x.div y) (fun z => z.accuracy = x.accuracy.combine y.accuracy) fun _ => True := by
  unfold div
  split
  · trivial
  · exact combine_accuracy x y fun _ _ _ _ => rfl

theorem reciprocal_accuracy (x : Number) :
    Meets x.reciprocal (fun z => z.accuracy = x.accuracy) fun _ => True :=
  (div_accuracy one x).imp fun z hz => hz.trans (by cases x.accuracy <;> rfl)

/-- A natural power has the tag of its base. -/
theorem powNat_accuracy (x : Number) (n : Nat) :
    Meets (x.powNat n) (fun z => z.accuracy = x.accuracy) fun _ => True := by
  cases x with
  | ratio p q =>
    rw [powNat]
    split
    · trivial
    · exact simplify_accuracy _
  | decimal v a => exact .after fun _ => rfl

/-- A whole power has the tag of its base. -/
theorem powInt_accuracy (x : Number) (n : Int) :
    Meets (x.powInt n) (fun z => z.accuracy = x.accuracy) fun _ => True := by
  unfold powInt
  split
  · split
    · trivial
    · exact (reciprocal_accuracy x).bind fun z hz => hz ▸ powNat_accuracy z _
  · split
    · cases x <;> rfl
    · exact powNat_accuracy x _

/-! Roots and powers of an approximation are approximations, and so are powers with an approximate
exponent, unless that is whole. -/

/-- An exact root is one of a fraction. -/
theorem root_isApproximate (h : x.IsApproximate) (degree : Nat) :
    Meets (x.root degree) IsApproximate fun _ => True := by
  obtain ⟨v, rfl⟩ := isApproximate_iff.mp h
  unfold root
  split
  · trivial
  · exact .after fun _ => .after fun _ => rfl

/-- The power of an approximate base, with any exponent. -/
theorem pow_isApproximate (h : x.IsApproximate) (e : Number) :
    Meets (x.pow e) IsApproximate fun _ => True := by
  unfold pow
  refine .after fun whole => ?_
  cases whole with
  | some n => exact (powInt_accuracy x n).imp fun z hz => hz.trans h
  | none =>
    refine .after fun e' => ?_
    cases e' with
    -- a root is taken of a power, which is a decimal as its base is
    | ratio n d => exact (powInt_accuracy x n).bind fun z hz => root_isApproximate (hz.trans h) _
    | decimal v a =>
      dsimp only
      split
      · trivial
      · exact .after fun _ => .after fun _ => rfl

/-- The power with an approximate exponent that is not whole. -/
theorem pow_isApproximate_exponent {e : Number} (he : e.IsApproximate)
    (hwhole : e.whole? = .ok none) : Meets (x.pow e) IsApproximate fun _ => True := by
  obtain ⟨v, rfl⟩ := isApproximate_iff.mp he
  simp only [pow, hwhole, simplify, ok_bind]
  split
  · trivial
  · exact .after fun _ => .after fun _ => rfl

/-- The root of an approximation is one, if there is a root. -/
theorem sqrt_isApproximate (h : x.IsApproximate) : Meets x.sqrt IsApproximate fun _ => True := by
  obtain ⟨v, rfl⟩ := isApproximate_iff.mp h
  unfold sqrt
  split
  · trivial
  · exact .after fun _ => .after fun _ => ite_self _

end Number

/-! ## Functions -/

namespace NamedFunction

open Number

/-- A decimal that is tagged as an approximation stays one when it is fitted to the range. -/
theorem ofDecimal_isApproximate (d : Decimal) :
    Meets (ofDecimal d .approximate) IsApproximate fun _ => True := by
  unfold ofDecimal
  split
  · rfl
  · trivial
  · trivial

/-- A sine or a cosine is an approximation, also of an exact number. -/
theorem wave_isApproximate (cosine : Bool) (settings : EvalSettings) (x : Number) :
    Meets (wave cosine settings x) IsApproximate fun _ => True := by
  have hnumber : ∀ d : Decimal, Meets (do return (← ofDecimal d .approximate).denoise)
      IsApproximate fun _ => True :=
    fun d => (ofDecimal_isApproximate d).bind fun _ hz => hz.denoise
  unfold wave
  refine .after fun v => ?_
  split
  · exact .after fun value => hnumber _
  · exact hnumber _

/-- Every function but the greatest common divisor gives an approximation. -/
theorem eval_isApproximate {f : NamedFunction} (hf : f ≠ gcd) (args : List Number)
    (settings : EvalSettings) : Meets (f.eval args settings) IsApproximate fun _ => True := by
  unfold eval
  split
  · exact wave_isApproximate false settings _
  · exact wave_isApproximate true settings _
  · exact absurd rfl hf
  · trivial

end NamedFunction

/-- The value of an operator is exact if and only if both operands are. -/
theorem BinaryOp.apply_accuracy (op : BinaryOp) (x y : Number) :
    Meets (op.apply x y) (fun z => z.accuracy = x.accuracy.combine y.accuracy) fun _ => True := by
  cases op with
  | add => exact x.add_accuracy y
  | subtract => exact x.sub_accuracy y
  | multiply => exact x.mul_accuracy y
  | divide => exact x.div_accuracy y

theorem BinaryOp.apply_isApproximate (op : BinaryOp) {x y : Number}
    (h : x.IsApproximate ∨ y.IsApproximate) :
    Meets (op.apply x y) Number.IsApproximate fun _ => True :=
  (op.apply_accuracy x y).imp fun _ hz => hz.trans (Accuracy.combine_eq_approximate h)

/-! ## Expressions -/

namespace Expr

/-- The value of an expression is a whole number within a word. -/
def isWhole (settings : EvalSettings) (e : Expr) : Bool :=
  match e.eval settings >>= Number.whole? with
  | .ok (some _) => true
  | _ => false

/-- The operands whose accuracy counts for the result: all but the arguments of a greatest common
divisor and an exponent that is whole. -/
def carriers (settings : EvalSettings) : Expr → List Expr
  | power b e => if e.isWhole settings then [b] else [b, e]
  | call .gcd _ => []
  | e => e.operands

/-- The value of the expression, if it has one, is an approximation. -/
def IsApproximate (settings : EvalSettings) (e : Expr) : Prop :=
  Meets (e.eval settings) Number.IsApproximate fun _ => True

variable {settings : EvalSettings}

/-- An exponent that counts for the result is not whole, if it is an approximation. -/
theorem whole?_of_not_isWhole {e : Expr} {y : Number} (h : ¬e.isWhole settings = true)
    (he : e.eval settings = .ok y) (hy : y.IsApproximate) : y.whole? = .ok none := by
  obtain ⟨v, rfl⟩ := Number.isApproximate_iff.mp hy
  obtain ⟨whole, hwhole⟩ : ∃ whole, Number.whole? (.decimal v .approximate) = .ok whole :=
    ((Number.whole?_meets (x := .decimal v .approximate) trivial fun _ => False).exists_ok).imp
      fun _ h => h.1
  cases whole with
  | none => exact hwhole
  | some n => exact absurd (by rw [isWhole, he, ok_bind, hwhole]) h

theorem base_mem_carriers (b e : Expr) : b ∈ (power b e).carriers settings := by
  rw [carriers]
  split <;> exact List.mem_cons_self

/-- One operation. -/
theorem isApproximate_of_carrier {e u : Expr} (hu : u ∈ e.carriers settings)
    (h : u.IsApproximate settings) : e.IsApproximate settings := by
  cases e with
  | number x => cases hu
  | var name => cases hu
  | sqrt inner =>
    obtain rfl := List.mem_singleton.mp hu
    rw [IsApproximate, eval]
    exact h.bind fun x hx => Number.sqrt_isApproximate hx
  | parentheses inner =>
    obtain rfl := List.mem_singleton.mp hu
    rwa [IsApproximate, eval]
  | power b e =>
    have hbase : b.IsApproximate settings → (power b e).IsApproximate settings := by
      intro hb
      rw [IsApproximate, eval]
      exact hb.bind fun x hx => .after fun y => Number.pow_isApproximate hx y
    rw [carriers] at hu
    by_cases hwhole : e.isWhole settings = true
    · rw [if_pos hwhole] at hu
      obtain rfl := List.mem_singleton.mp hu
      exact hbase h
    · rw [if_neg hwhole] at hu
      rcases List.mem_pair.mp hu with rfl | rfl
      · exact hbase h
      -- the exponent counts, and it is no whole number
      · rw [IsApproximate, eval]
        refine .after fun x => h.eq_and.bind fun y hy => ?_
        exact Number.pow_isApproximate_exponent hy.2 (whole?_of_not_isWhole hwhole hy.1 hy.2)
  | binary op left right =>
    rw [IsApproximate, eval]
    rcases List.mem_pair.mp hu with rfl | rfl
    · exact h.bind fun x hx => .after fun y => op.apply_isApproximate (.inl hx)
    · exact .after fun x => h.bind fun y hy => op.apply_isApproximate (.inr hy)
  | call f args =>
    have hf : f ≠ .gcd := by
      rintro rfl
      cases hu
    rw [IsApproximate, eval]
    exact .after fun xs => NamedFunction.eval_isApproximate hf xs settings

/-- The expression `u` stands inside `e`, and its accuracy counts for the value of `e`. -/
def Carries (settings : EvalSettings) (e u : Expr) : Prop :=
  Relation.ReflTransGen (fun e u => u ∈ e.carriers settings) e u

/-- Any number of operations: by induction from the inside, since each of them hands it on. -/
theorem Carries.isApproximate {e u : Expr} (h : Carries settings e u)
    (hu : u.IsApproximate settings) : e.IsApproximate settings := by
  induction h using Relation.ReflTransGen.head_induction_on with
  | refl => exact hu
  | head hstep _ ih => exact isApproximate_of_carrier hstep ih

/-- An approximation inside an expression whose accuracy counts makes the value an approximation.
Noise is cleared from such a value. -/
theorem eval_approximate {e u : Expr} {x z : Number} (hinside : Carries settings e u)
    (hu : u.eval settings = .ok x) (hx : x.accuracy = .approximate)
    (he : e.eval settings = .ok z) :
    z.accuracy = .approximate ∧ ∃ v, z = .decimal v .approximate ∧
      z.denoise = .decimal (v.denoise noiseRun) .approximate := by
  have hvalue : u.IsApproximate settings := by
    rw [IsApproximate, hu]
    exact hx
  have hz : z.IsApproximate := (hinside.isApproximate hvalue).of_ok he
  obtain ⟨v, rfl⟩ := Number.isApproximate_iff.mp hz
  exact ⟨rfl, v, rfl, rfl⟩

/-- The square of the root of two is found to be just below two. It is an approximation as the root
is, and two when noise is cleared from it. -/
theorem eval_approximate_root_of_two :
    ∃ x z, Carries {} (power (sqrt (number (.ratio 2 1))) (number (.ratio 2 1)))
        (sqrt (number (.ratio 2 1))) ∧
      (sqrt (number (.ratio 2 1))).eval {} = .ok x ∧ x.accuracy = .approximate ∧
      (power (sqrt (number (.ratio 2 1))) (number (.ratio 2 1))).eval {} = .ok z ∧
      z.accuracy = .approximate ∧ z.denoise = .decimal (.ofNat 2) .approximate := by
  have hinside : Carries {} (power (sqrt (number (.ratio 2 1))) (number (.ratio 2 1)))
      (sqrt (number (.ratio 2 1))) := .single (base_mem_carriers _ _)
  have hroot : (sqrt (number (.ratio 2 1))).eval {} =
      .ok (.decimal ⟨false, 1414213562373095048801688724, -27⟩ .approximate) := by decide +kernel
  have hsquare : (power (sqrt (number (.ratio 2 1))) (number (.ratio 2 1))).eval {} =
      .ok (.decimal ⟨false, 1999999999999999999999999999, -27⟩ .approximate) := by decide +kernel
  obtain ⟨htag, v, hv, hclear⟩ := eval_approximate hinside hroot rfl hsquare
  obtain ⟨rfl, -⟩ := Number.decimal.inj hv
  refine ⟨_, _, hinside, hroot, rfl, hsquare, htag, hclear.trans ?_⟩
  decide +kernel

/-- The value of an operand is an approximation, and the value of the expression is exact. -/
def LosesTag (settings : EvalSettings) (e u : Expr) : Prop :=
  u ∈ e.operands ∧ ∃ x z, u.eval settings = .ok x ∧ x.accuracy = .approximate ∧
    e.eval settings = .ok z ∧ z.accuracy = .exact

/-- Two to an approximate three is exactly eight, and a greatest common divisor is exact, also that
of an approximate four or of an approximate half and six. -/
theorem eval_loses_tag :
    LosesTag {} (power (number (.ratio 2 1)) (number (.decimal (.ofNat 3) .approximate)))
      (number (.decimal (.ofNat 3) .approximate)) ∧
    LosesTag {} (call .gcd [number (.decimal (.ofNat 4) .approximate), number (.ratio 6 1)])
      (number (.decimal (.ofNat 4) .approximate)) ∧
    LosesTag {} (call .gcd [number (.decimal ⟨false, 5, -1⟩ .approximate), number (.ratio 6 1)])
      (number (.decimal ⟨false, 5, -1⟩ .approximate)) := by
  have hpower : (power (number (.ratio 2 1)) (number (.decimal (.ofNat 3) .approximate))).eval {} =
      .ok (.ratio 8 1) := by decide +kernel
  have hdivisor : (call .gcd [number (.decimal (.ofNat 4) .approximate),
      number (.ratio 6 1)]).eval {} = .ok (.ratio 2 1) := by decide +kernel
  have hone : (call .gcd [number (.decimal ⟨false, 5, -1⟩ .approximate),
      number (.ratio 6 1)]).eval {} = .ok (.decimal .one .exact) := by decide +kernel
  exact ⟨⟨List.mem_pair.mpr (.inr rfl), _, _, eval.eq_1 _ _, rfl, hpower, rfl⟩,
    ⟨List.mem_cons_self, _, _, eval.eq_1 _ _, rfl, hdivisor, rfl⟩,
    ⟨List.mem_cons_self, _, _, eval.eq_1 _ _, rfl, hone, rfl⟩⟩

end Expr

end Mathpad
