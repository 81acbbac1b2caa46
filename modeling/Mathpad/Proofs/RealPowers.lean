import Mathlib.Analysis.SpecialFunctions.Pow.Real
import Mathlib.Data.Rat.Lemmas

/-!
# Real powers with a fractional exponent

The power of a real number whose exponent is a fraction `n / d` is the `n`-th power of the `d`-th
root, and a negative number has a root for each odd `d`. The laws of exponents hold as long as no
root of even degree is taken of a negative number, and zero is not inverted.
-/
set_option autoImplicit false

namespace Mathpad

/-- `x ^ q` with the roots of negative numbers: the power of the magnitude, with the sign that the
numerator gives it. -/
noncomputable def realPower (x : ℝ) (q : ℚ) : ℝ := (SignType.sign x : ℝ) ^ q.num * |x| ^ (q : ℝ)

/-- `x ^ q` does not invert zero. -/
def NotInverted (x : ℝ) (q : ℚ) : Prop := 0 ≤ q ∨ x ≠ 0

/-! ## Signs -/

/-- An odd factor in the exponent does not change a power of minus one. -/
theorem neg_one_zpow_mul_odd (m : ℤ) {k : ℕ} (hk : Odd k) : (-1 : ℝ) ^ (m * k) = (-1) ^ m := by
  rw [mul_comm, zpow_mul, zpow_natCast, hk.neg_one_pow]

theorem odd_of_dvd {k m : ℕ} (h : k ∣ m) (hm : Odd m) : Odd k := by
  obtain ⟨c, rfl⟩ := h
  exact (Nat.odd_mul.mp hm).1

/-- The numerator of a product is odd just if both numerators are, if all denominators are odd. -/
theorem neg_one_zpow_mul {p q : ℚ} (hp : Odd p.den) (hq : Odd q.den) :
    (-1 : ℝ) ^ (p * q).num = (-1) ^ (p.num * q.num) := by
  have hden : Odd (p * q).den := odd_of_dvd (Rat.mul_den_dvd p q) (hp.mul hq)
  have hcross : (p * q).num * p.den * q.den = p.num * q.num * (p * q).den := Rat.mul_num_den' p q
  rw [← neg_one_zpow_mul_odd _ hp, ← neg_one_zpow_mul_odd _ hq, hcross,
    neg_one_zpow_mul_odd _ hden]

/-- The signs that two odd roots give are multiplied when the exponents are added. -/
theorem neg_one_zpow_add {p q : ℚ} (hp : Odd p.den) (hq : Odd q.den) :
    (-1 : ℝ) ^ (p + q).num = (-1) ^ p.num * (-1) ^ q.num := by
  have hden : Odd (p + q).den := odd_of_dvd (Rat.add_den_dvd p q) (hp.mul hq)
  have hcross : (p + q).num * p.den * q.den = (p.num * q.den + q.num * p.den) * (p + q).den :=
    Rat.add_num_den' p q
  rw [← neg_one_zpow_mul_odd _ hp, ← neg_one_zpow_mul_odd _ hq, hcross,
    neg_one_zpow_mul_odd _ hden, zpow_add₀ (by norm_num), neg_one_zpow_mul_odd _ hq,
    neg_one_zpow_mul_odd _ hp]

/-- A prime factor of the denominator of a sum comes from one of the summands. -/
theorem dvd_den_sum {qs : List ℚ} {k : ℕ} (hk : k.Prime) (h : k ∣ qs.sum.den) :
    ∃ q ∈ qs, k ∣ q.den := by
  induction qs with
  | nil =>
    rw [List.sum_nil, Rat.den_zero] at h
    exact absurd (Nat.dvd_one.mp h) hk.one_lt.ne'
  | cons q qs ih =>
    rw [List.sum_cons] at h
    rcases hk.dvd_mul.mp (h.trans (Rat.add_den_dvd q qs.sum)) with hq | hqs
    · exact ⟨q, by simp, hq⟩
    · obtain ⟨p, hp, hdvd⟩ := ih hqs
      exact ⟨p, by simp [hp], hdvd⟩

/-! ## The power itself -/

theorem realPower_of_pos {x : ℝ} (hx : 0 < x) (q : ℚ) : realPower x q = x ^ (q : ℝ) := by
  rw [realPower, sign_pos hx, SignType.coe_one, one_zpow, one_mul, abs_of_pos hx]

theorem realPower_of_neg {x : ℝ} (hx : x < 0) (q : ℚ) :
    realPower x q = (-1) ^ q.num * |x| ^ (q : ℝ) := by
  rw [realPower, sign_neg hx, SignType.coe_neg_one]

/-- A whole power is the usual one, whatever the sign of the base. -/
theorem realPower_intCast (x : ℝ) (n : ℤ) : realPower x n = x ^ n := by
  rw [realPower, Rat.num_intCast, Rat.cast_intCast, Real.rpow_intCast, ← mul_zpow, sign_mul_abs]

@[simp] theorem realPower_zero (x : ℝ) : realPower x 0 = 1 := by
  have h := realPower_intCast x 0
  rwa [Int.cast_zero, zpow_zero] at h

@[simp] theorem realPower_one (x : ℝ) : realPower x 1 = x := by
  have h := realPower_intCast x 1
  rwa [Int.cast_one, zpow_one] at h

@[simp] theorem one_realPower (q : ℚ) : realPower 1 q = 1 := by
  rw [realPower_of_pos one_pos, Real.one_rpow]

theorem zero_realPower {q : ℚ} (hq : q ≠ 0) : realPower 0 q = 0 := by
  rw [realPower, sign_zero, SignType.coe_zero, zero_zpow _ (Rat.num_ne_zero.mpr hq), zero_mul]

theorem realPower_nonneg {x : ℝ} (hx : 0 ≤ x) (q : ℚ) : 0 ≤ realPower x q := by
  rcases hx.lt_or_eq with hpos | rfl
  · rw [realPower_of_pos hpos]
    exact Real.rpow_nonneg hx _
  · by_cases hq : q = 0
    · rw [hq, realPower_zero]
      exact zero_le_one
    · rw [zero_realPower hq]

/-! ## Laws of exponents -/

/-- The power of a product is the product of the powers. -/
theorem mul_realPower (x y : ℝ) (q : ℚ) :
    realPower (x * y) q = realPower x q * realPower y q := by
  rw [realPower, sign_mul, SignType.coe_mul, mul_zpow, abs_mul,
    Real.mul_rpow (abs_nonneg x) (abs_nonneg y), realPower, realPower]
  ring

/-- The power of a power, if even roots are not taken of negative numbers. -/
theorem realPower_realPower {x : ℝ} {p q : ℚ} (hp : NotInverted x p)
    (hq : NotInverted (realPower x p) q) (heven : Even p.den ∨ Even q.den → 0 ≤ x) :
    realPower (realPower x p) q = realPower x (p * q) := by
  rcases lt_trichotomy x 0 with hneg | rfl | hpos
  · have hodd : Odd p.den ∧ Odd q.den := by
      rw [← Nat.not_even_iff_odd, ← Nat.not_even_iff_odd, ← not_or]
      exact fun h => absurd (heven h) (not_le.mpr hneg)
    have hroot : 0 < |x| ^ (p : ℝ) := Real.rpow_pos_of_pos (abs_pos.mpr hneg.ne) _
    have hpower : realPower (|x| ^ (p : ℝ)) q = |x| ^ ((p * q : ℚ) : ℝ) := by
      rw [realPower_of_pos hroot, ← Real.rpow_mul (abs_nonneg x), Rat.cast_mul]
    -- the power of a sign is a sign: the exponents of the two are multiplied as whole numbers
    have hunit : realPower ((-1) ^ p.num) q = (-1) ^ (p.num * q.num) := by
      rw [zpow_mul]
      rcases Int.even_or_odd p.num with heven | hodd
      · rw [heven.neg_one_zpow, one_realPower, one_zpow]
      · rw [hodd.neg_one_zpow, realPower_of_neg (by norm_num), abs_neg, abs_one, Real.one_rpow,
          mul_one]
    rw [realPower_of_neg hneg p, mul_realPower, hunit, hpower, realPower_of_neg hneg,
      neg_one_zpow_mul hodd.1 hodd.2]
  · by_cases hzero : p = 0
    · rw [hzero, realPower_zero, one_realPower, zero_mul, realPower_zero]
    · rw [zero_realPower hzero] at hq ⊢
      by_cases hq0 : q = 0
      · rw [hq0, realPower_zero, mul_zero, realPower_zero]
      · rw [zero_realPower hq0, zero_realPower (mul_ne_zero hzero hq0)]
  · rw [realPower_of_pos hpos p, realPower_of_pos (Real.rpow_pos_of_pos hpos _),
      ← Real.rpow_mul hpos.le, realPower_of_pos hpos, Rat.cast_mul]

/-- The product of two powers of one number. -/
theorem realPower_add {x : ℝ} {p q : ℚ} (hp : NotInverted x p) (hq : NotInverted x q)
    (heven : Even p.den ∨ Even q.den → 0 ≤ x) :
    realPower x (p + q) = realPower x p * realPower x q := by
  rcases lt_trichotomy x 0 with hneg | rfl | hpos
  · have hodd : Odd p.den ∧ Odd q.den := by
      rw [← Nat.not_even_iff_odd, ← Nat.not_even_iff_odd, ← not_or]
      exact fun h => absurd (heven h) (not_le.mpr hneg)
    rw [realPower_of_neg hneg, realPower_of_neg hneg, realPower_of_neg hneg,
      neg_one_zpow_add hodd.1 hodd.2, Rat.cast_add, Real.rpow_add (abs_pos.mpr hneg.ne)]
    ring
  · have hp0 : 0 ≤ p := hp.resolve_right (by simp)
    have hq0 : 0 ≤ q := hq.resolve_right (by simp)
    by_cases hp' : p = 0
    · rw [hp', zero_add, realPower_zero, one_mul]
    · have hsum : p + q ≠ 0 := by
        intro hzero
        exact hp' (by linarith)
      rw [zero_realPower hp', zero_mul, zero_realPower hsum]
  · rw [realPower_of_pos hpos, realPower_of_pos hpos, realPower_of_pos hpos, Rat.cast_add,
      Real.rpow_add hpos]

/-- A sum of exponents inverts zero only if one of them does. -/
theorem notInverted_sum {x : ℝ} {qs : List ℚ} (h : ∀ q ∈ qs, NotInverted x q) :
    NotInverted x qs.sum := by
  by_cases hx : x = 0
  · exact Or.inl (List.sum_nonneg fun q hq => (h q hq).resolve_right (by simp [hx]))
  · exact Or.inr hx

/-- Adding exponents multiplies the powers, if no even root is taken of a negative number and zero
is not inverted. -/
theorem realPower_sum {x : ℝ} {qs : List ℚ} (h : ∀ q ∈ qs, NotInverted x q)
    (heven : ∀ q ∈ qs, Even q.den → 0 ≤ x) :
    realPower x qs.sum = (qs.map (realPower x)).prod := by
  induction qs with
  | nil => exact realPower_zero x
  | cons q qs ih =>
    have hrest := ih (fun p hp => h p (by simp [hp])) fun p hp => heven p (by simp [hp])
    rw [List.sum_cons, List.map_cons, List.prod_cons, ← hrest]
    refine realPower_add (h q (by simp)) (notInverted_sum fun p hp => h p (by simp [hp])) ?_
    rintro (hq | hqs)
    · exact heven q (by simp) hq
    · obtain ⟨p, hp, hdvd⟩ := dvd_den_sum Nat.prime_two hqs.two_dvd
      exact heven p (by simp [hp]) (even_iff_two_dvd.mpr hdvd)

end Mathpad
