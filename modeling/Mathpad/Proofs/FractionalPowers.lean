import Mathpad.Proofs.ApproximatePowers
import Mathpad.Proofs.Subtraction

/-!
# Fractional powers of fractions

The power of a fraction whose exponent is a fraction in lowest terms, but not whole, is the root of a
whole power. It is a fraction exactly if that root is one, and otherwise an approximation that has
the sign of the whole power; before that the whole power may be missing, because it divides by zero
or does not fit, and an even root of a negative number is imaginary.
-/
set_option autoImplicit false

namespace Mathpad

namespace Number

open Decimal

/-! ## Approximate roots -/

/-- The magnitude of a fraction other than zero, as the decimal that a root is taken of. -/
theorem exists_magnitude {q : ℚ} (hq : Fits q) (h : q ≠ 0) :
    ∃ v, (ofRat q).toDecimal = .ok v ∧ (v.magnitude precision).negative = false ∧
      1 ≤ 10 ^ 21 * (v.magnitude precision).value ∧ (v.magnitude precision).value ≤ 10 ^ 21 := by
  obtain ⟨v, hv⟩ := exists_toDecimal hq
  have hmagnitude := magnitude_of_digitCount_le (toDecimal_inRange hv).digits
  have hvalue : (v.magnitude precision).value = |v.value| := by
    rw [hmagnitude, abs_value, value_eq]
    simp
  have hnear := abs_toDecimal_sub_le hv
  have hlow := hq.one_div_le_abs h
  have hhigh := hq.abs_le
  have htri := abs_sub_abs_le_abs_sub v.value q
  have htri' := abs_sub_abs_le_abs_sub q v.value
  rw [abs_sub_comm] at htri'
  rw [slack] at hnear
  refine ⟨v, hv, by rw [hmagnitude], ?_, ?_⟩
  · rw [hvalue]
    norm_num at hlow hnear ⊢
    linarith
  · rw [hvalue]
    norm_num at hhigh hnear ⊢
    linarith

/-- The reciprocal of a degree is above zero and hardly more than a half. -/
theorem reciprocal_degree_bounds {k : ℕ} (hk : 2 ≤ k) :
    0 < (Decimal.one.div precision (Decimal.ofNat k)).value ∧
    (Decimal.one.div precision (Decimal.ofNat k)).value ≤ 21 / 40 := by
  have hdigits : (Decimal.ofNat k).digits ≠ 0 := by
    change k ≠ 0
    omega
  have hnear := abs_div_sub_le (p := precision) (by decide) Decimal.one hdigits
  have hk' : (2 : ℚ) ≤ k := by exact_mod_cast hk
  have hpos : (0 : ℚ) < 1 / k := by positivity
  have hhalf : (1 : ℚ) / k ≤ 1 / 2 := by gcongr
  rw [Decimal.value_one, value_ofNat, abs_of_pos hpos, abs_le] at hnear
  generalize (1 : ℚ) / k = t at hnear hpos hhalf
  norm_num [precision] at hnear ⊢
  constructor <;> linarith

/-- A root that is no fraction is found as a decimal, with the sign of the number. -/
theorem root_approximate {q : ℚ} (hq : Fits q) (h : q ≠ 0) {k : ℕ} (hk : 2 ≤ k)
    (heven : ¬(q < 0 ∧ Even k)) (hnone : (ofRat q).exactRoot? k = none) :
    ∃ v, (ofRat q).root k = .ok (.decimal v .approximate) ∧
      SignType.sign v.value = SignType.sign q := by
  obtain ⟨v, hv, hsign, hlow, hhigh⟩ := exists_magnitude hq h
  obtain ⟨hpos, hhalf⟩ := reciprocal_degree_bounds hk
  obtain ⟨size, hsize, hrange, hsize0⟩ := exists_power hsign hlow hhigh hpos hhalf
  have hdigits : (v.magnitude precision).digits ≠ 0 := by
    refine digits_ne_zero fun hzero => ?_
    rw [hzero] at hlow
    norm_num at hlow
  have happroximate : approximatePower (v.magnitude precision)
      (Decimal.one.div precision (Decimal.ofNat k)) = .ok size := by
    rw [approximatePower, if_neg hdigits, hsize]
  have himaginary : ¬((ofRat q).isNegative = true ∧ k % 2 = 0) := fun hboth =>
    heven ⟨(isNegative_ofRat q).mp hboth.1, Nat.even_iff.mpr hboth.2⟩
  -- the root is taken of the magnitude and gets the sign back
  refine ⟨if (ofRat q).isNegative then size.negate precision else size, ?_, ?_⟩
  · rw [root, if_neg himaginary, hnone, hv]
    dsimp only
    rw [ok_bind, happroximate, ok_bind]
    rfl
  · by_cases hneg : q < 0
    · have hvalue : (size.negate precision).value = -size.value := by
        rw [value_negate, hrange.isShort.toDigits_eq]
      rw [if_pos ((isNegative_ofRat q).mpr hneg), hvalue, sign_neg hneg, sign_neg (by linarith)]
    · have hq0 : 0 < q := lt_of_le_of_ne (not_lt.mp hneg) (Ne.symm h)
      rw [if_neg fun h => hneg ((isNegative_ofRat q).mp h), sign_pos hsize0, sign_pos hq0]

/-! ## Exact roots -/

/-- A root has the sign of the number, if it is not the negative one of two. -/
theorem sign_of_pow {r q : ℚ} {k : ℕ} (hk : k ≠ 0) (h : r ^ k = q) (heven : Even k → 0 ≤ r) :
    SignType.sign r = SignType.sign q := by
  rcases lt_trichotomy r 0 with hneg | rfl | hpos
  · have hodd : Odd k := Nat.not_even_iff_odd.mp fun hk => absurd hneg (not_lt.mpr (heven hk))
    rw [← h, sign_neg hneg, sign_neg (hodd.pow_neg hneg)]
  · rw [← h, zero_pow hk]
  · rw [← h, sign_pos hpos, sign_pos (pow_pos hpos k)]

/-- The root of a fraction: one that is a fraction is found, and otherwise there is none. -/
theorem root_ofRat_cases {q : ℚ} (hq : Fits q) {k : ℕ} (hk : 2 ≤ k) :
    if q < 0 ∧ Even k then (ofRat q).root k = failMaths .imaginary
    else (∃ r : ℚ, r ^ k = q ∧ Fits r ∧ SignType.sign r = SignType.sign q ∧
        (ofRat q).root k = .ok (ofRat r)) ∨
      (¬∃ r : ℚ, r ^ k = q) ∧ ∃ v, (ofRat q).root k = .ok (.decimal v .approximate) ∧
        SignType.sign v.value = SignType.sign q := by
  by_cases himaginary : q < 0 ∧ Even k
  · rw [if_pos himaginary, root,
      if_pos ⟨(isNegative_ofRat q).mpr himaginary.1, Nat.even_iff.mp himaginary.2⟩]
  rw [if_neg himaginary]
  have hroot : ∀ x, (ofRat q).exactRoot? k = some x → (ofRat q).root k = .ok x := by
    intro x hx
    rw [root, if_neg, hx]
    exact fun hboth => himaginary ⟨(isNegative_ofRat q).mp hboth.1, Nat.even_iff.mpr hboth.2⟩
  cases hcase : (ofRat q).exactRoot? k with
  | some x =>
    obtain ⟨r, rfl, hpow, heven⟩ := exactRoot?_ofRat (by omega) himaginary hcase
    exact .inl ⟨r, hpow, fits_of_pow (by omega) hpow hq, sign_of_pow (by omega) hpow heven,
      hroot _ hcase⟩
  | none =>
    have hno : ¬∃ r : ℚ, r ^ k = q := by
      rintro ⟨r, hr⟩
      -- of two roots of even degree one is not negative
      obtain ⟨s, hs, heven⟩ : ∃ s : ℚ, s ^ k = q ∧ (Even k → 0 ≤ s) := by
        by_cases hk' : Even k
        · exact ⟨|r|, by rw [hk'.pow_abs, hr], fun _ => abs_nonneg r⟩
        · exact ⟨r, hr, fun h => absurd h hk'⟩
      rw [exactRoot?_ofRat_of_pow (by omega) hs heven] at hcase
      cases hcase
    have hq0 : q ≠ 0 := by
      rintro rfl
      exact hno ⟨0, zero_pow (by omega)⟩
    exact .inr ⟨hno, root_approximate hq hq0 hk himaginary hcase⟩

/-! ## Powers -/

/-- In lowest terms only one of the parts is even. -/
theorem odd_num_of_even_den {e : ℚ} (h : Even e.den) : Odd e.num := by
  rw [← Int.not_even_iff_odd]
  intro hnum
  have hdvd : 2 ∣ e.num.natAbs.gcd e.den :=
    Nat.dvd_gcd (Int.natAbs_even.mpr hnum).two_dvd h.two_dvd
  rw [e.reduced] at hdvd
  omega

/-- A power with an exponent that is not whole. -/
theorem pow_fractional {b e : ℚ} (he : Fits e) (hden : 2 ≤ e.den) :
    if b = 0 ∧ e.num < 0 then (ofRat b).pow (ofRat e) = failMaths .divisionByZero
    else if ¬Fits (b ^ e.num) then (ofRat b).pow (ofRat e) = failMaths .overflow
    else if b < 0 ∧ Even e.den then (ofRat b).pow (ofRat e) = failMaths .imaginary
    else (∃ r : ℚ, r ^ e.den = b ^ e.num ∧ Fits r ∧ SignType.sign r = SignType.sign (b ^ e.num) ∧
        (ofRat b).pow (ofRat e) = .ok (ofRat r)) ∨
      (¬∃ r : ℚ, r ^ e.den = b ^ e.num) ∧
        ∃ v, (ofRat b).pow (ofRat e) = .ok (.decimal v .approximate) ∧
          SignType.sign v.value = SignType.sign (b ^ e.num) := by
  have hwhole : ¬e.den = 1 := by omega
  -- the exponent is not whole, so the power is a root of a whole power
  have hpow : (ofRat b).pow (ofRat e) = (do (← (ofRat b).powInt e.num).root e.den) := by
    rw [pow, whole?_ofRat, ok_bind, if_neg hwhole]
    dsimp only
    rw [simplify_ofRat_eq, checked_of_fits he, ok_bind]
    rfl
  rw [hpow, powInt_ofRat_cases]
  by_cases hinverted : b = 0 ∧ e.num < 0
  · rw [if_pos hinverted, if_pos hinverted]
    rfl
  rw [if_neg hinverted, if_neg hinverted]
  by_cases hfits : Fits (b ^ e.num)
  · rw [if_neg (not_not.mpr hfits), checked_of_fits hfits, ok_bind]
    -- an even denominator has an odd numerator, so that the power has the sign of the base
    have hnegative : b < 0 ∧ Even e.den ↔ b ^ e.num < 0 ∧ Even e.den :=
      and_congr_left fun heven => (odd_num_of_even_den heven).zpow_neg_iff.symm
    have hroot := root_ofRat_cases hfits hden
    by_cases himaginary : b < 0 ∧ Even e.den
    · rw [if_pos himaginary]
      rwa [if_pos (hnegative.mp himaginary)] at hroot
    · rw [if_neg himaginary]
      rwa [if_neg fun h => himaginary (hnegative.mpr h)] at hroot
  · rw [if_pos hfits, checked_of_not_fits hfits]
    rfl

/-- Eight to the power of minus two thirds is a quarter, and a root of minus eight is imaginary. -/
theorem pow_fractional_eight :
    Fits (-2 / 3) ∧ 2 ≤ (-2 / 3 : ℚ).den ∧ (ofRat 8).pow (ofRat (-2 / 3)) = .ok (ofRat (1 / 4)) ∧
    Fits (1 / 2) ∧ 2 ≤ (1 / 2 : ℚ).den ∧ (ofRat (-8)).pow (ofRat (1 / 2)) = failMaths .imaginary := by
  have hthird : Fits (-2 / 3) := by decide +kernel
  have hthree : (-2 / 3 : ℚ).den = 3 := by decide +kernel
  have htwo : (-2 / 3 : ℚ).num = -2 := by decide +kernel
  have hhalf : Fits (1 / 2) := by decide +kernel
  have hden : (1 / 2 : ℚ).den = 2 := by decide +kernel
  have hnum : (1 / 2 : ℚ).num = 1 := by decide +kernel
  have hpower : (8 : ℚ) ^ (-2 : ℤ) = (1 / 4) ^ 3 := by norm_num
  have hexact := pow_fractional (b := 8) hthird (by omega)
  have heven := pow_fractional (b := -8) hhalf (by omega)
  rw [htwo, hthree, if_neg (by norm_num), if_neg, if_neg (by norm_num)] at hexact
  · rw [hnum, hden, if_neg (by norm_num), if_neg, if_pos (by norm_num)] at heven
    · refine ⟨hthird, by omega, ?_, hhalf, by omega, heven⟩
      rcases hexact with ⟨r, hr, -, -, hpow⟩ | ⟨hno, -⟩
      · obtain rfl : r = 1 / 4 := (Odd.pow_inj (by decide)).mp (hr.trans hpower)
        exact hpow
      · exact absurd ⟨1 / 4, hpower.symm⟩ hno
    · rw [not_not, zpow_one]
      decide +kernel
  · rw [not_not, hpower]
    decide +kernel

end Number

end Mathpad
