import Mathlib.Analysis.SpecialFunctions.Trigonometric.Basic
import Mathlib.Data.List.TFAE
import Mathpad.Proofs.Exactness

/-!
# What terms are worth that compare equal

Terms are compared through their constants, and constants through decimals of twenty-eight
digits and twenty-eight places. Terms that compare equal are the same term, and so are worth
the same, just as far as their constants are told apart that way. Fractions with parts of up to
thirteen digits are; not all fractions are whose parts are words, and a sum can then lose two
terms that do not cancel.
-/
set_option autoImplicit false

namespace Mathpad

/-! ## Real values -/

/-- An angle in radians. -/
noncomputable def AngleUnit.radians : AngleUnit → ℝ → ℝ
  | degree, x => x * (Real.pi / 180)
  | radian, x => x

open Classical in
/-- `x ^ y` where it is a real number. Zero may not be inverted, and of the powers of a negative
number those are real whose exponent is a fraction with an odd denominator. -/
noncomputable def realPower? (x y : ℝ) : Option ℝ :=
  if 0 < x ∨ x = 0 ∧ 0 ≤ y then some (x ^ y)
  else if h : x < 0 ∧ ∃ q : ℚ, Odd q.den ∧ y = q then some (realPower x h.2.choose)
  else none

theorem realPower?_of_pos {x : ℝ} (hx : 0 < x) (y : ℝ) : realPower? x y = some (x ^ y) :=
  if_pos (.inl hx)

open Classical in
/-- The value of a function for the values of its arguments. A greatest common divisor belongs to
whole numbers, and is one for any others. -/
noncomputable def NamedFunction.realValue? (unit : AngleUnit) :
    NamedFunction → List ℝ → Option ℝ
  | sine, [x] => some (Real.sin (unit.radians x))
  | cosine, [x] => some (Real.cos (unit.radians x))
  | gcd, [x, y] => some (if x = ⌊x⌋ ∧ y = ⌊y⌋ then Int.gcd ⌊x⌋ ⌊y⌋ else 1)
  | _, _ => none

namespace Term

mutual

/-- The real number that a term is worth, if it is worth one, for given values of the
variables. Nothing is rounded. -/
noncomputable def realValue? (unit : AngleUnit) (ρ : String → ℚ) : Term → Option ℝ
  | number x => some x.value
  | var name => some (ρ name)
  | product ts => (realValues? unit ρ ts).map List.prod
  | sum ts => (realValues? unit ρ ts).map List.sum
  | power b e => do
    let x ← b.realValue? unit ρ
    realPower? x (← e.realValue? unit ρ)
  | call f ts => do f.realValue? unit (← realValues? unit ρ ts)

/-- The real numbers that terms are worth, in their order. -/
noncomputable def realValues? (unit : AngleUnit) (ρ : String → ℚ) : List Term → Option (List ℝ)
  | [] => some []
  | t :: ts => do
    let x ← t.realValue? unit ρ
    return x :: (← realValues? unit ρ ts)

end

/-- The difference of two terms that have a value is the difference of their values. -/
theorem realValue?_difference {unit : AngleUnit} {ρ : String → ℚ} {t u : Term} {x y : ℝ}
    (ht : t.realValue? unit ρ = some x) (hu : u.realValue? unit ρ = some y) :
    (sum [t, product [number Number.minusOne, u]]).realValue? unit ρ = some (x + -1 * y) := by
  simp [realValue?, realValues?, ht, hu, Number.value, Number.minusOne]

/-- Two terms are worth the same, for all values of the variables that both are worth something
for. -/
def SameWorth (t u : Term) : Prop :=
  ∀ unit ρ x y, t.realValue? unit ρ = some x → u.realValue? unit ρ = some y → x = y

theorem SameWorth.refl (t : Term) : SameWorth t t := fun _ _ _ _ hx hy =>
  Option.some.inj (hx.symm.trans hy)

/-- Constants of the same worth are equal. -/
theorem sameWorth_numbers {p q : ℚ} (h : SameWorth (number (.ofRat p)) (number (.ofRat q))) :
    p = q := by
  have hcast := h .radian (fun _ => 0) _ _ rfl rfl
  rw [Number.value_ofRat, Number.value_ofRat] at hcast
  exact_mod_cast hcast

/-! ## Constants -/

/-- The constants in a term are fractions in `C`. -/
def ConstantsIn (C : ℚ → Prop) (t : Term) : Prop :=
  AllNumbers (fun x => ∃ q, C q ∧ x = .ofRat q) t

/-- Constants that compare equal are equal where comparison tells them apart. -/
theorem eq_of_tied_constants {C : ℚ → Prop} (hC : ToldApart C) {t u : Term}
    (ht : t.ConstantsIn C) (hu : u.ConstantsIn C) (h : Tied t u) : t = u := by
  refine h.eq_of_allNumbers ?_ ht hu
  rintro _ _ ⟨p, hp, rfl⟩ ⟨q, hq, rfl⟩ horder
  rw [hC p q hp hq horder]

/-- Neither part of the fraction is above `10 ^ 13`. -/
def HasShortParts (q : ℚ) : Prop := |q.num| ≤ 10 ^ 13 ∧ q.den ≤ 10 ^ 13

/-- Different fractions are at least as far apart as their denominators allow. -/
theorem one_div_le_abs_sub {p q : ℚ} (h : p ≠ q) : 1 / ((p.den : ℚ) * q.den) ≤ |p - q| := by
  have hp : (0 : ℚ) < p.den := by exact_mod_cast p.den_pos
  have hq : (0 : ℚ) < q.den := by exact_mod_cast q.den_pos
  have hint : 1 ≤ |p.num * q.den - q.num * p.den| :=
    Int.one_le_abs (sub_ne_zero.mpr fun heq => h (Rat.eq_iff_mul_eq_mul.mpr heq))
  have hcross : (1 : ℚ) ≤ |(p.num : ℚ) * q.den - p.den * q.num| := by
    rw [mul_comm (p.den : ℚ)]
    exact_mod_cast hint
  conv_rhs => rw [← Rat.num_div_den p, ← Rat.num_div_den q, div_sub_div _ _ hp.ne' hq.ne',
    abs_div, abs_of_pos (mul_pos hp hq)]
  gcongr

/-- A fraction of short parts has little slack: far less than the distance to another one. -/
theorem slack_le_of_short {p : ℚ} (h : HasShortParts p) :
    Number.slack p * p.den ≤ 15 * 10 ^ 13 / (2 * 10 ^ 28) := by
  have hp : (0 : ℚ) < p.den := by exact_mod_cast p.den_pos
  have hnum : |p| * p.den ≤ 10 ^ 13 := by
    have habs : |p| * p.den = |(p.num : ℚ)| := by
      conv_lhs => rw [← Rat.num_div_den p, abs_div, abs_of_pos hp]
      rw [Rat.num_div_den]
      exact div_mul_cancel₀ _ hp.ne'
    rw [habs]
    exact_mod_cast h.1
  have hden : (p.den : ℚ) ≤ 10 ^ 13 := by exact_mod_cast h.2
  have hsum : (14 * |p| + 1) * p.den = 14 * (|p| * p.den) + p.den := by ring
  rw [Number.slack, div_mul_eq_mul_div, hsum]
  refine div_le_div_of_nonneg_right ?_ (by norm_num)
  linarith

/-- Fractions with short parts are told apart: they lie further apart than twenty-eight digits
reach. -/
theorem toldApart_short : ToldApart HasShortParts := by
  refine toldApart_of_far fun p q hp hq hne => ?_
  have hpden : (0 : ℚ) < p.den := by exact_mod_cast p.den_pos
  have hqden : (0 : ℚ) < q.den := by exact_mod_cast q.den_pos
  refine lt_of_lt_of_le ?_ (one_div_le_abs_sub hne)
  rw [lt_div_iff₀ (mul_pos hpden hqden)]
  have hpslack := slack_le_of_short hp
  have hqslack := slack_le_of_short hq
  have hplen : (p.den : ℚ) ≤ 10 ^ 13 := by exact_mod_cast hp.2
  have hqlen : (q.den : ℚ) ≤ 10 ^ 13 := by exact_mod_cast hq.2
  calc (Number.slack p + Number.slack q) * (p.den * q.den)
      = Number.slack p * p.den * q.den + Number.slack q * q.den * p.den := by ring
    _ ≤ 15 * 10 ^ 13 / (2 * 10 ^ 28) * 10 ^ 13 + 15 * 10 ^ 13 / (2 * 10 ^ 28) * 10 ^ 13 := by
        gcongr
    _ < 1 := by norm_num

/-! ## Ties -/

/-- Whether ties among terms mean anything is a matter of their constants alone. If the constants
are told apart, terms that compare equal are equal and so are worth the same; if they are not,
some terms compare equal that are not worth the same. Constants with short parts are told
apart. -/
theorem sameWorth_of_tied_iff (C : ℚ → Prop) :
    [ToldApart C,
      ∀ t u : Term, t.ConstantsIn C → u.ConstantsIn C → Tied t u → t = u,
      ∀ t u : Term, t.ConstantsIn C → u.ConstantsIn C → Tied t u → SameWorth t u].TFAE ∧
    ((∀ q, C q → HasShortParts q) → ToldApart C) := by
  refine ⟨?_, fun hshort p q hp hq => toldApart_short p q (hshort p hp) (hshort q hq)⟩
  tfae_have 1 → 2 := fun hC t u ht hu h => eq_of_tied_constants hC ht hu h
  tfae_have 2 → 3 := fun heq t u ht hu h => heq t u ht hu h ▸ SameWorth.refl t
  tfae_have 3 → 1 := by
    intro hsame p q hp hq horder
    have htied : Tied (number (.ofRat p)) (number (.ofRat q)) := by rwa [Tied, order]
    exact sameWorth_numbers (hsame _ _ ⟨p, hp, rfl⟩ ⟨q, hq, rfl⟩ htied)
  tfae_finish

/-- Two fractions in lowest terms whose parts are words compare equal without being equal, and
the difference of two powers with these exponents is simplified to zero. -/
theorem different_fractions_tie :
    let x := Number.ratio 1 9000000006000000001
    let y := Number.ratio 1 9000000012000000004
    let t := sum [power (var "a") (number x),
      product [number Number.minusOne, power (var "a") (number y)]]
    (x.InLowestTerms ∧ y.InLowestTerms) ∧
    (isWord 9000000006000000001 = true ∧ isWord 9000000012000000004 = true) ∧
    Tied (number x) (number y) ∧ ¬SameWorth (number x) (number y) ∧
    t.simplify = .ok ⟨number Number.zero, true⟩ ∧
    ∃ v, t.realValue? .radian (fun _ => 2) = some v ∧ v ≠ 0 := by
  intro x y t
  have hx : x.InLowestTerms := ⟨by decide, by decide⟩
  have hy : y.InLowestTerms := ⟨by decide, by decide⟩
  have hless : y.value < x.value := by
    simp only [x, y, Number.value]
    norm_num
  have hworth : ¬SameWorth (number x) (number y) := by
    intro h
    rw [hx.eq_ofRat, hy.eq_ofRat] at h
    exact hless.ne' (sameWorth_numbers h)
  have hs : t.flatten.sort = .ok (sum [product [number Number.minusOne,
      power (var "a") (number y)], power (var "a") (number x)]) := by with_unfolding_all rfl
  have hr : t.simplify = .ok ⟨number Number.zero, true⟩ := by
    rw [simplify, hs, ok_bind]
    exact reduce_of_reduceWithin (n := 6) (by with_unfolding_all rfl)
  have hpower : ∀ z : Number, (power (var "a") (number z)).realValue? .radian (fun _ => 2)
      = some ((2 : ℝ) ^ (z.value : ℝ)) := by
    intro z
    have htwo := realPower?_of_pos (x := ((2 : ℚ) : ℝ)) (by norm_num) z.value
    rw [Rat.cast_ofNat] at htwo
    exact htwo
  refine ⟨⟨hx, hy⟩, ⟨rfl, rfl⟩, by with_unfolding_all rfl, hworth, hr,
    (2 : ℝ) ^ (x.value : ℝ) + -1 * (2 : ℝ) ^ (y.value : ℝ), ?_, ?_⟩
  · exact realValue?_difference (hpower x) (hpower y)
  -- a power of two grows with its exponent
  · have hgrows : (2 : ℝ) ^ (y.value : ℝ) < 2 ^ (x.value : ℝ) :=
      Real.rpow_lt_rpow_of_exponent_lt (by norm_num) (by exact_mod_cast hless)
    linarith

end Term
end Mathpad
