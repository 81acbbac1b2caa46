import Mathpad.Decimal.Series
import Mathpad.Proofs.HalfEven

/-!
# How large the series are

What is computed by a series is never compared with the function that it stands for: it is enough to
know between which bounds it lies. The odd powers are at most nine eighths of the first one, if that
is of a third at most. The exponential series has alternating and falling terms for a negative
argument and terms that fall by more than a third for a positive one, so that it is nowhere near zero.
-/
set_option autoImplicit false

namespace Mathpad

namespace Series

/-! ## Quotients toward zero -/

theorem abs_tdiv_mul_le (a b : ℤ) : |a.tdiv b| * |b| ≤ |a| := by
  rw [Int.abs_eq_natAbs, Int.abs_eq_natAbs, Int.abs_eq_natAbs, Int.natAbs_tdiv]
  exact_mod_cast Nat.div_mul_le_self a.natAbs b.natAbs

theorem abs_tdiv_le (a b : ℤ) : |a.tdiv b| ≤ |a| := by
  rw [Int.abs_eq_natAbs, Int.abs_eq_natAbs, Int.natAbs_tdiv]
  exact_mod_cast Nat.div_le_self a.natAbs b.natAbs

/-! ## Odd powers -/

section OddPowers

variable {n d : ℤ}

theorem oddTail_zero (alternating : Bool) (n d : ℤ) (fuel k : ℕ) :
    oddTail alternating n d fuel k 0 = 0 := by
  cases fuel <;> simp [oddTail]

/-- Each term of the series is the power before it, divided, and the next power has two factors
more. -/
theorem oddTail_succ (alternating : Bool) (n d : ℤ) (fuel k : ℕ) (power : ℤ) :
    oddTail alternating n d (fuel + 1) k power = power.tdiv k +
      oddTail alternating n d fuel (k + 2)
        (if alternating then -(power * (n * n)).tdiv (d * d) else (power * (n * n)).tdiv (d * d)) := by
  by_cases hzero : power = 0
  · simp [hzero, oddTail_zero]
  · rw [oddTail, if_neg hzero]

/-- Each power is a ninth of the one before it. -/
theorem abs_nextPower_le (h : 3 * |n| ≤ |d|) (power : ℤ) :
    9 * |(power * (n * n)).tdiv (d * d)| ≤ |power| := by
  by_cases hd : d = 0
  · simp [hd]
  have hsquare : 9 * (n * n) ≤ d * d := by
    rw [← abs_mul_abs_self n, ← abs_mul_abs_self d]
    nlinarith [abs_nonneg n]
  have hpos : 0 < d * d := mul_self_pos.mpr hd
  have hdiv := abs_tdiv_mul_le (power * (n * n)) (d * d)
  rw [abs_mul power, abs_of_pos hpos, abs_of_nonneg (mul_self_nonneg n)] at hdiv
  refine le_of_mul_le_mul_right ?_ hpos
  calc 9 * |(power * (n * n)).tdiv (d * d)| * (d * d)
      = 9 * (|(power * (n * n)).tdiv (d * d)| * (d * d)) := mul_assoc ..
    _ ≤ 9 * (|power| * (n * n)) := by linarith
    _ = |power| * (9 * (n * n)) := by ring
    _ ≤ |power| * (d * d) := by gcongr

/-- The series adds at most an eighth to its first term, as each term is at most a ninth of the one
before. -/
theorem abs_oddTail_le (alternating : Bool) (h : 3 * |n| ≤ |d|) (fuel k : ℕ) (power : ℤ) :
    8 * |oddTail alternating n d fuel k power| ≤ 9 * |power| := by
  induction fuel generalizing k power with
  | zero => simp [oddTail]
  | succ fuel ih =>
    have hnext := abs_nextPower_le h power
    have hterm := abs_tdiv_le power k
    rw [oddTail_succ]
    generalize hs : (if alternating then -(power * (n * n)).tdiv (d * d)
      else (power * (n * n)).tdiv (d * d)) = next
    have habs : |next| = |(power * (n * n)).tdiv (d * d)| := by
      rw [← hs]
      split
      · exact abs_neg _
      · rfl
    have htail := ih (k + 2) next
    have htri := abs_add_le (power.tdiv k) (oddTail alternating n d fuel (k + 2) next)
    omega

/-- Without alternating signs nothing is taken away from the first power. -/
theorem oddTail_nonneg (n d : ℤ) (fuel k : ℕ) {power : ℤ} (hpower : 0 ≤ power) :
    0 ≤ oddTail false n d fuel k power := by
  induction fuel generalizing k power with
  | zero => simp [oddTail]
  | succ fuel ih =>
    rw [oddTail_succ, if_neg Bool.false_ne_true]
    have hnext := Int.tdiv_nonneg (mul_nonneg hpower (mul_self_nonneg n)) (mul_self_nonneg d)
    have hterm := Int.tdiv_nonneg hpower (Int.natCast_nonneg k)
    exact add_nonneg hterm (ih (k + 2) hnext)

end OddPowers

/-! ## Logarithms -/

theorem le_termLimit (one : ℤ) : 64 ≤ termLimit one := by
  unfold termLimit
  omega

/-- The logarithm that is computed is at most an eighth larger than twice its first term. -/
theorem abs_twiceArtanh_le (one : ℤ) {n d : ℤ} (h : 3 * |n| ≤ |d|) :
    4 * |twiceArtanh one n d| ≤ 9 * |(one * n).tdiv d| := by
  have htail := abs_oddTail_le false h (termLimit one) 1 ((one * n).tdiv d)
  rw [twiceArtanh, abs_mul, abs_two]
  omega

theorem abs_twiceArtanh_le_one {one : ℤ} (hone : 0 ≤ one) {n d : ℤ} (h : 3 * |n| ≤ |d|) :
    4 * |twiceArtanh one n d| ≤ 3 * one := by
  have hartanh := abs_twiceArtanh_le one h
  have hfirst : 3 * |(one * n).tdiv d| ≤ one := by
    by_cases hd : d = 0
    · simpa [hd] using hone
    refine le_of_mul_le_mul_right ?_ (abs_pos.mpr hd)
    have hdiv := abs_tdiv_mul_le (one * n) d
    rw [abs_mul, abs_of_nonneg hone] at hdiv
    calc 3 * |(one * n).tdiv d| * |d| = 3 * (|(one * n).tdiv d| * |d|) := mul_assoc ..
      _ ≤ 3 * (one * |n|) := by linarith
      _ = one * (3 * |n|) := by ring
      _ ≤ one * |d| := by gcongr
  omega

/-- For a positive ratio the logarithm that is computed is at least twice its first term. -/
theorem le_twiceArtanh {one : ℤ} (hone : 0 ≤ one) {n d : ℤ} (hn : 0 ≤ n) (hd : 0 ≤ d) :
    2 * (one * n).tdiv d ≤ twiceArtanh one n d := by
  obtain ⟨fuel, hfuel⟩ : ∃ fuel, termLimit one = fuel + 1 :=
    ⟨termLimit one - 1, by have := le_termLimit one; omega⟩
  have hfirst := Int.tdiv_nonneg (mul_nonneg hone hn) hd
  rw [twiceArtanh, hfuel, oddTail_succ, if_neg Bool.false_ne_true, Nat.cast_one, Int.tdiv_one]
  have hnext := Int.tdiv_nonneg (mul_nonneg hfirst (mul_self_nonneg n)) (mul_self_nonneg d)
  have htail := oddTail_nonneg n d fuel (1 + 2) hnext
  omega

/-- The logarithm of two that is computed lies between two thirds and three quarters, up to the
rounding of its last digits. -/
theorem lnTwo_bounds {one : ℤ} (hone : 0 ≤ one) :
    2 * one - 4 ≤ 3 * lnTwo one ∧ 4 * lnTwo one ≤ 3 * one := by
  have hlow := le_twiceArtanh hone (n := 1) (d := 3) (by decide) (by decide)
  have hhigh := abs_twiceArtanh_le_one hone (n := 1) (d := 3) (by decide)
  have hself := le_abs_self (twiceArtanh one 1 3)
  rw [mul_one, Int.tdiv_eq_ediv_of_nonneg hone] at hlow
  unfold lnTwo
  omega

/-- The logarithm of ten is between two and two and a half. -/
theorem lnTen_bounds {one : ℤ} (hone : 26 ≤ one) :
    2 * one ≤ lnTen one ∧ 2 * lnTen one ≤ 5 * one := by
  have hnonneg : 0 ≤ one := by omega
  obtain ⟨hlow, hhigh⟩ := lnTwo_bounds hnonneg
  have hlow' := le_twiceArtanh hnonneg (n := 1) (d := 9) (by decide) (by decide)
  have hhigh' := abs_twiceArtanh_le one (n := 1) (d := 9) (by decide)
  have hself := le_abs_self (twiceArtanh one 1 9)
  rw [mul_one, Int.tdiv_eq_ediv_of_nonneg hnonneg] at hlow' hhigh'
  rw [abs_of_nonneg (Int.ediv_nonneg hnonneg (by decide))] at hhigh'
  unfold lnTen
  omega

/-! ## Exponentials -/

section Exponentials

variable {one r : ℤ}

theorem expTail_zero (one r : ℤ) (fuel k : ℕ) : expTail one r fuel k 0 = 0 := by
  cases fuel <;> simp [expTail]

/-- Each term of the exponential series is the one before it, times the argument and divided by the
index. -/
theorem expTail_succ (one r : ℤ) (fuel k : ℕ) (term : ℤ) :
    expTail one r (fuel + 1) k term =
      term + expTail one r fuel (k + 1) ((term * r).tdiv (one * (k + 1))) := by
  by_cases hzero : term = 0
  · simp [hzero, expTail_zero]
  · rw [expTail, if_neg hzero]

theorem expTail_nonneg (hone : 0 < one) (hr : 0 ≤ r) (fuel k : ℕ) {term : ℤ} (hterm : 0 ≤ term) :
    0 ≤ expTail one r fuel k term := by
  induction fuel generalizing k term with
  | zero => simp [expTail]
  | succ fuel ih =>
    rw [expTail_succ]
    exact add_nonneg hterm (ih (k + 1) (Int.tdiv_nonneg (mul_nonneg hterm hr) (by positivity)))

/-- After the first term each is at most five eighths of the one before it. -/
theorem expTail_le (hone : 0 < one) (hr : 0 ≤ r) (hsmall : 4 * r ≤ 5 * one) (fuel : ℕ) {k : ℕ}
    (hk : 1 ≤ k) {term : ℤ} (hterm : 0 ≤ term) : 3 * expTail one r fuel k term ≤ 8 * term := by
  induction fuel generalizing k term with
  | zero => simpa [expTail] using hterm
  | succ fuel ih =>
    rw [expTail_succ]
    generalize hs : (term * r).tdiv (one * (k + 1)) = next
    have hnext : 0 ≤ next := hs ▸ Int.tdiv_nonneg (mul_nonneg hterm hr) (by positivity)
    have hfalls : 8 * next ≤ 5 * term := by
      have hdiv := abs_tdiv_mul_le (term * r) (one * (k + 1))
      rw [hs, abs_of_nonneg hnext, abs_of_nonneg (mul_nonneg hterm hr),
        abs_of_pos (by positivity : 0 < one * ((k : ℤ) + 1))] at hdiv
      have hk' : (2 : ℤ) ≤ k + 1 := by omega
      refine le_of_mul_le_mul_right ?_ hone
      calc 8 * next * one = 4 * (next * (one * 2)) := by ring
        _ ≤ 4 * (next * (one * (k + 1))) := by gcongr
        _ ≤ 4 * (term * r) := by linarith
        _ = term * (4 * r) := by ring
        _ ≤ term * (5 * one) := by gcongr
        _ = 5 * term * one := by ring
    have htail := ih (by omega : 1 ≤ k + 1) hnext
    omega

/-- The terms for a negative argument alternate and fall, so that they add up to something between
zero and the first of them. -/
theorem expTail_alternating (hone : 0 < one) (hr : r ≤ 0) (fuel : ℕ) {k : ℕ}
    (hsmall : -r ≤ one * (k + 1)) (term : ℤ) :
    (0 ≤ term → 0 ≤ expTail one r fuel k term ∧ expTail one r fuel k term ≤ term) ∧
    (term ≤ 0 → term ≤ expTail one r fuel k term ∧ expTail one r fuel k term ≤ 0) := by
  induction fuel generalizing k term with
  | zero => simp [expTail]
  | succ fuel ih =>
    rw [expTail_succ]
    generalize hs : (term * r).tdiv (one * (k + 1)) = next
    have htail := ih (k := k + 1) (by push_cast; nlinarith) next
    have hunit : 0 < one * ((k : ℤ) + 1) := by positivity
    -- the argument is small against the divisor, so the next term is no larger, and it has the
    -- other sign
    have hfalls : |next| ≤ |term| := by
      have hdiv := abs_tdiv_mul_le (term * r) (one * (k + 1))
      rw [hs, abs_of_pos hunit, abs_mul, abs_of_nonpos hr] at hdiv
      refine le_of_mul_le_mul_right (hdiv.trans ?_) hunit
      gcongr
    have hsign : (0 ≤ term → next ≤ 0) ∧ (term ≤ 0 → 0 ≤ next) := by
      rw [← hs]
      refine ⟨fun hterm => ?_, fun hterm => ?_⟩
      · rw [← neg_neg (term * r), Int.neg_tdiv, neg_nonpos, ← mul_neg]
        exact Int.tdiv_nonneg (mul_nonneg hterm (neg_nonneg.mpr hr)) hunit.le
      · exact Int.tdiv_nonneg (mul_nonneg_of_nonpos_of_nonpos hterm hr) hunit.le
    constructor
    · intro hterm
      have hnext := hsign.1 hterm
      have hbounds := htail.2 hnext
      rw [abs_of_nonpos hnext, abs_of_nonneg hterm] at hfalls
      omega
    · intro hterm
      have hnext := hsign.2 hterm
      have hbounds := htail.1 hnext
      rw [abs_of_nonneg hnext, abs_of_nonpos hterm] at hfalls
      omega

/-- The first four terms of an exponential with the argument `-x` add up to more than a fifth. -/
theorem cubic_bound {x s t : ℤ} (hone : 1000 ≤ one) (hx : 0 ≤ x) (hsmall : 4 * x ≤ 5 * one)
    (hs : x * x < (s + 1) * (2 * one)) (ht : t * (3 * one) ≤ s * x) :
    one ≤ 5 * (one - x + s - t) := by
  have hpos : 0 < 6 * (one * one) := by positivity
  have hsquare : (x * x - 2 * one) * (3 * one - x) ≤ 2 * one * s * (3 * one - x) := by
    have hle : x * x - 2 * one ≤ 2 * one * s := by linarith
    exact mul_le_mul_of_nonneg_right hle (by linarith)
  have hterms : 2 * one * s * (3 * one - x) ≤ 6 * (one * one) * (s - t) := by
    nlinarith [mul_le_mul_of_nonneg_left ht (by positivity : 0 ≤ 2 * one)]
  -- the polynomial falls as `x` grows, and is positive where `4 * x = 5 * one`
  have hcubic : 0 ≤ 6 * (one * one) * (4 * one - 5 * x) +
      5 * ((x * x - 2 * one) * (3 * one - x)) := by
    have hgap : 0 ≤ 5 * one - 4 * x := by linarith
    have h₁ : 0 ≤ one * (5 * one - 4 * x) * x := by positivity
    have h₂ : 0 ≤ (5 * one - 4 * x) * (5 * one - 4 * x) * (5 * one - 4 * x) := by positivity
    have h₃ : 0 ≤ one * one * (one - 1000) := mul_nonneg (by positivity) (by linarith)
    have h₄ : 0 ≤ one * one * (5 * one - 4 * x) := by positivity
    have h₅ : 0 ≤ one * x := by positivity
    nlinarith
  have htotal : 0 ≤ 6 * (one * one) * (4 * one - 5 * x + 5 * (s - t)) := by linarith
  have hsum := nonneg_of_mul_nonneg_right htotal hpos
  linarith

/-- From the fourth term of an alternating series on nothing but that term may be missing. -/
theorem le_exp_neg {x : ℤ} (hone : 1000 ≤ one) (hx : 0 ≤ x) (hsmall : 4 * x ≤ 5 * one) (fuel : ℕ) :
    one ≤ 5 * (one + expTail one (-x) (fuel + 2) 1 (-x)) := by
  rw [expTail_succ, expTail_succ, neg_mul_neg, mul_neg, Int.neg_tdiv]
  generalize hs : (x * x).tdiv (one * ((1 : ℕ) + 1)) = s
  generalize ht : (s * x).tdiv (one * ((1 + 1 : ℕ) + 1)) = t
  have hs0 : 0 ≤ s := hs ▸ Int.tdiv_nonneg (mul_self_nonneg x) (by positivity)
  have ht0 : 0 ≤ t := ht ▸ Int.tdiv_nonneg (mul_nonneg hs0 hx) (by positivity)
  have htail := (expTail_alternating (by omega : 0 < one) (neg_nonpos.mpr hx) fuel (k := 1 + 1 + 1)
    (by push_cast; omega) (-t)).2 (neg_nonpos.mpr ht0)
  have hfour := cubic_bound (s := s) (t := t) hone hx hsmall ?_ ?_
  · omega
  · have htwo : one * ((1 : ℕ) + 1) = 2 * one := by push_cast; ring
    rw [← hs, Int.tdiv_eq_ediv_of_nonneg (mul_self_nonneg x), htwo]
    exact Int.lt_ediv_add_one_mul_self _ (by omega)
  · have hthree : one * ((1 + 1 : ℕ) + 1) = 3 * one := by push_cast; ring
    rw [← ht, Int.tdiv_eq_ediv_of_nonneg (mul_nonneg hs0 hx), hthree]
    exact Int.ediv_mul_le _ (by omega)

/-- An exponential is between a fifth and five, for an argument of at most five quarters. -/
theorem exp_bounds (hone : 1000 ≤ one) (hr : 4 * |r| ≤ 5 * one) {fuel : ℕ} (hfuel : 3 ≤ fuel) :
    one ≤ 5 * expTail one r fuel 0 one ∧ expTail one r fuel 0 one ≤ 5 * one := by
  obtain ⟨fuel, rfl⟩ : ∃ k, fuel = k + 3 := ⟨fuel - 3, by omega⟩
  have hpos : 0 < one := by omega
  have hfirst : (one * r).tdiv (one * ((0 : ℕ) + 1)) = r := by
    rw [Nat.cast_zero, zero_add, mul_one, Int.mul_tdiv_cancel_left _ hpos.ne']
  rw [expTail_succ, hfirst, zero_add]
  rcases le_total 0 r with hnonneg | hnonpos
  · rw [abs_of_nonneg hnonneg] at hr
    have hlow := expTail_nonneg hpos hnonneg (fuel + 2) 1 hnonneg
    have hhigh := expTail_le hpos hnonneg hr (fuel + 2) le_rfl hnonneg
    omega
  · rw [abs_of_nonpos hnonpos] at hr
    have hhigh := (expTail_alternating hpos hnonpos (fuel + 2) (k := 1) (by push_cast; omega) r).2
      hnonpos
    have hlow := le_exp_neg hone (neg_nonneg.mpr hnonpos) hr fuel
    rw [neg_neg] at hlow
    exact ⟨hlow, by omega⟩

end Exponentials

end Series

end Mathpad
