import Mathpad.Proofs.Faults
import Mathpad.Proofs.Nearness

/-!
# Decimals in range

A result is rounded to the precision before it is fitted. Rounding carries nothing beyond the
largest magnitude that was not beyond it already, so a decimal that is rounded is in range
exactly when its value is, and what an operation computes is in range or overflows.
-/
set_option autoImplicit false

namespace Mathpad

namespace Decimal

theorem digitCount_zero : digitCount 0 = 1 := by
  rw [digitCount, if_pos (by decide)]

/-! ## Rounding at the largest magnitude -/

/-- A coefficient with no more digits than the precision is below the largest magnitude. -/
theorem digits_lt_of_few {n : Nat} (h : digitCount n ≤ precision) : n < maxMagnitude :=
  lt_of_lt_of_le (lt_pow_of_digitCount_le h) (by decide)

/-- The largest magnitude is an odd number and a half, in units of ten, so that digits are rounded
up from there on. -/
theorem divRound_le_iff {n k : Nat} :
    divRound n (10 ^ (k + 1)) ≤ maxMagnitude / 10 ↔ n < maxMagnitude * 10 ^ k := by
  obtain ⟨m, hm⟩ : ∃ m, m = 10 ^ k := ⟨_, rfl⟩
  have hpos : 0 < m := by rw [hm]; positivity
  have hmax : maxMagnitude = 79228162514264337593543950335 := by decide
  have hhead : maxMagnitude / 10 = 7922816251426433759354395033 := by decide
  rw [pow_succ, ← hm, hhead, hmax]
  obtain ⟨q, r, hn, hr⟩ : ∃ q r, n = q * (m * 10) + r ∧ r < m * 10 :=
    ⟨n / (m * 10), n % (m * 10), by rw [mul_comm]; exact (Nat.div_add_mod _ _).symm,
      Nat.mod_lt _ (by omega)⟩
  have hdiv : n / (m * 10) = q := by
    rw [hn, mul_comm, Nat.mul_add_div (by omega), Nat.div_eq_of_lt hr, add_zero]
  have hmod : n % (m * 10) = r := by
    rw [hn, mul_comm q, Nat.mul_add_mod, Nat.mod_eq_of_lt hr]
  unfold divRound
  rw [hdiv, hmod]
  -- only for one quotient does it depend on the remainder
  rcases lt_trichotomy q 7922816251426433759354395033 with hq | rfl | hq
  · have hle := Nat.mul_le_mul_right (m * 10) (Nat.succ_le_of_lt hq)
    rw [Nat.succ_mul] at hle
    split <;> omega
  · split <;> omega
  · have hle := Nat.mul_le_mul_right (m * 10) (Nat.succ_le_of_lt hq)
    split <;> omega

/-- The value of a magnitude that is rounded, with or without a carry. -/
theorem value_magnitude_of_many {d : Decimal} {k : Nat} (hk : digitCount d.digits = precision + k)
    (hpos : 0 < k) :
    (d.magnitude precision).value = divRound d.digits (10 ^ k) * 10 ^ (d.exponent + k) := by
  have hexcess : digitCount d.digits - precision = k := by omega
  have hdrop : dropDigits d.digits k = divRound d.digits (10 ^ k) := if_neg (by omega)
  unfold magnitude round
  simp only [hexcess, hdrop, if_neg hpos.ne']
  by_cases hcarry : divRound d.digits (10 ^ k) = 10 ^ precision
  · rw [if_pos hcarry, value_eq, hcarry, zpow_add₀ (by norm_num) _ 1, zpow_one]
    push_cast [precision]
    norm_num
    ring
  · rw [if_neg hcarry, value_eq]
    simp

/-- A decimal with few digits is not rounded, and is not the largest magnitude. -/
theorem le_max_iff_of_few {d : Decimal} (hfew : digitCount d.digits ≤ precision) :
    (d.digits : ℚ) * 10 ^ d.exponent ≤ maxMagnitude ↔
      (d.digits : ℚ) * 10 ^ d.exponent < maxMagnitude := by
  have hlt := digits_lt_of_few hfew
  by_cases hexp : d.exponent ≤ 0
  · have hless : (d.digits : ℚ) * 10 ^ d.exponent < maxMagnitude := by
      have hpow : (10 : ℚ) ^ d.exponent ≤ 1 := zpow_le_one_of_nonpos₀ (by norm_num) hexp
      calc (d.digits : ℚ) * 10 ^ d.exponent ≤ d.digits * 1 := by gcongr
        _ < maxMagnitude := by rw [mul_one]; exact_mod_cast hlt
    exact ⟨fun _ => hless, fun _ => hless.le⟩
  -- a multiple of ten is not the largest magnitude
  · obtain ⟨j, hj⟩ : ∃ j : Nat, d.exponent = j + 1 := ⟨(d.exponent - 1).toNat, by omega⟩
    have hvalue : (d.digits : ℚ) * 10 ^ d.exponent = ((d.digits * 10 ^ j * 10 : Nat) : ℚ) := by
      rw [hj, zpow_add₀ (by norm_num), zpow_natCast]
      push_cast
      ring
    have hodd : maxMagnitude % 10 = 5 := by decide
    rw [hvalue, Nat.cast_le, Nat.cast_lt]
    omega

/-- A coefficient with more digits than the precision is at least the power of ten with so many
digits. -/
theorem pow_le_of_many {n j : Nat} (hj : digitCount n = precision + (j + 1)) :
    10 ^ (27 + (j + 1)) ≤ n := by
  unfold precision at hj
  have hcount : 27 + (j + 1) = digitCount n - 1 := by omega
  rw [hcount]
  refine pow_digitCount_le ?_
  rintro rfl
  rw [digitCount_zero] at hj
  omega

/-- What is left of many digits are as many as the precision, before a carry. -/
theorem divRound_bounds {n j : Nat} (hj : digitCount n = precision + (j + 1)) :
    10 ^ 27 ≤ divRound n (10 ^ (j + 1)) ∧ divRound n (10 ^ (j + 1)) ≤ 10 ^ 28 := by
  have hlow : 10 ^ 27 ≤ n / 10 ^ (j + 1) := by
    rw [Nat.le_div_iff_mul_le (by positivity), ← pow_add]
    exact pow_le_of_many hj
  have hhigh : n / 10 ^ (j + 1) < 10 ^ 28 := by
    rw [Nat.div_lt_iff_lt_mul (by positivity), ← pow_add]
    exact lt_pow_of_digitCount_le hj.le
  unfold divRound
  split <;> omega

/-- A decimal with many digits is rounded beyond the largest magnitude exactly when it is beyond. -/
theorem le_max_iff_of_many {d : Decimal} {j : Nat}
    (hj : digitCount d.digits = precision + (j + 1)) :
    (divRound d.digits (10 ^ (j + 1)) : ℚ) * 10 ^ (d.exponent + (j + 1 : Nat)) ≤ maxMagnitude ↔
      (d.digits : ℚ) * 10 ^ d.exponent < maxMagnitude := by
  obtain ⟨hlow, hhigh⟩ := divRound_bounds hj
  have hdigits : d.digits < 10 ^ (28 + (j + 1)) := lt_pow_of_digitCount_le hj.le
  have hlarge : (10 : ℚ) ^ 28 < maxMagnitude := by
    exact_mod_cast (show 10 ^ 28 < maxMagnitude by decide)
  have hscale : (10 : ℚ) ^ d.exponent * 10 ^ (j + 1) = 10 ^ (d.exponent + (j + 1 : Nat)) := by
    rw [zpow_add₀ (by norm_num), zpow_natCast]
  generalize hs : d.exponent + ((j + 1 : Nat) : Int) = s at hscale ⊢
  rcases lt_trichotomy s 1 with hbelow | rfl | habove
  -- the digits that are kept do not reach beyond the units, so both are small
  · have hone : (10 : ℚ) ^ s ≤ 1 := zpow_le_one_of_nonpos₀ (by norm_num) (by omega)
    have hround : (divRound d.digits (10 ^ (j + 1)) : ℚ) * 10 ^ s ≤ 10 ^ 28 * 1 := by
      gcongr
      exact_mod_cast hhigh
    have hvalue : (d.digits : ℚ) * 10 ^ d.exponent < 10 ^ 28 := calc
      (d.digits : ℚ) * 10 ^ d.exponent < 10 ^ (28 + (j + 1)) * 10 ^ d.exponent := by
          gcongr
          exact_mod_cast hdigits
      _ = 10 ^ 28 * 10 ^ s := by rw [← hscale, pow_add]; ring
      _ ≤ 10 ^ 28 := by linarith
    exact ⟨fun _ => by linarith, fun _ => by linarith⟩
  -- the last digit that is kept counts the tens
  · have hexp : d.exponent = -(j : Int) := by omega
    have hround : (divRound d.digits (10 ^ (j + 1)) : ℚ) * 10 ^ (1 : Int) ≤ maxMagnitude ↔
        divRound d.digits (10 ^ (j + 1)) ≤ maxMagnitude / 10 := by
      rw [zpow_one, Nat.le_div_iff_mul_le (by norm_num)]
      exact_mod_cast Iff.rfl
    rw [hround, divRound_le_iff, hexp, zpow_neg, zpow_natCast, ← div_eq_mul_inv,
      div_lt_iff₀ (by positivity)]
    exact_mod_cast Iff.rfl
  -- both are beyond
  · have hsmall : (maxMagnitude : ℚ) < 10 ^ 29 := by
      exact_mod_cast (show maxMagnitude < 10 ^ 29 by decide)
    have hhundred : (10 : ℚ) ^ 2 ≤ 10 ^ s := by
      rw [← zpow_natCast]
      exact zpow_le_zpow_right₀ (by norm_num) (by omega)
    have hround : (10 : ℚ) ^ 29 ≤ divRound d.digits (10 ^ (j + 1)) * 10 ^ s := calc
      (10 : ℚ) ^ 29 = 10 ^ 27 * 10 ^ 2 := by norm_num
      _ ≤ (divRound d.digits (10 ^ (j + 1)) : ℚ) * 10 ^ s := by
          gcongr
          exact_mod_cast hlow
    have hmany : (10 : ℚ) ^ (27 + (j + 1)) ≤ d.digits := by exact_mod_cast pow_le_of_many hj
    have hvalue : (10 : ℚ) ^ 29 ≤ d.digits * 10 ^ d.exponent := calc
      (10 : ℚ) ^ 29 = 10 ^ 27 * 10 ^ 2 := by norm_num
      _ ≤ 10 ^ 27 * 10 ^ s := by gcongr
      _ = 10 ^ (27 + (j + 1)) * 10 ^ d.exponent := by rw [← hscale, pow_add]; ring
      _ ≤ (d.digits : ℚ) * 10 ^ d.exponent := by gcongr
    exact ⟨fun h => by linarith, fun h => by linarith⟩

/-- Rounding to the precision crosses the largest magnitude exactly where the value does. -/
theorem magnitude_in_range_iff (d : Decimal) :
    (ofNat maxMagnitude).lt (d.magnitude precision) = false ↔ |d.value| < maxMagnitude := by
  have hmax : (ofNat maxMagnitude).value = maxMagnitude := by
    rw [ofNat, value_eq]
    simp
  rw [← Bool.not_eq_true, lt_iff_value_lt, hmax, not_lt, abs_value]
  by_cases hfew : digitCount d.digits ≤ precision
  · rw [magnitude_of_digitCount_le hfew, value_eq, ← le_max_iff_of_few hfew]
    simp
  · obtain ⟨j, hj⟩ : ∃ j, digitCount d.digits = precision + (j + 1) :=
      ⟨digitCount d.digits - precision - 1, by omega⟩
    rw [value_magnitude_of_many hj (by omega), le_max_iff_of_many hj]

/-! ## What is in range -/

/-- Rounding does not see the sign. -/
theorem magnitude_eq_round (p : Nat) (d : Decimal) :
    d.magnitude p = ⟨false, (d.round p).digits, (d.round p).exponent⟩ := by
  unfold magnitude round
  dsimp only
  split
  · rfl
  · split <;> rfl

/-- What is not too large is in range once it is rounded. -/
theorem round_inRange {d : Decimal} (hplaces : -(maxPlaces : Int) ≤ d.exponent)
    (hsize : |d.value| < maxMagnitude) : (d.round precision).InRange := by
  refine ⟨digitCount_round_le (by decide) d, hplaces.trans (exponent_le_round _ d), ?_⟩
  rw [← magnitude_eq_round]
  exact (magnitude_in_range_iff d).mpr hsize

/-- The opposite of a decimal in range is in range: with its places permitted and its value below
the largest one. -/
theorem negate_inRange {v : Decimal} (hplaces : -(maxPlaces : Int) ≤ v.exponent)
    (hsize : |v.value| < maxMagnitude) : (v.negate precision).InRange := by
  unfold negate
  by_cases hzero : v.digits = 0
  · have hfew : digitCount 0 ≤ precision := by rw [digitCount_zero]; decide
    rw [if_pos hzero]
    have hround := round_inRange (d := { v with negative := false }) hplaces
      (by rwa [abs_value] at hsize ⊢)
    rwa [round_of_digitCount_le (by rwa [hzero])] at hround
  · rw [if_neg hzero]
    exact round_inRange (d := v.flip) hplaces (by rwa [abs_value] at hsize ⊢)

theorem InRange.abs_value_lt {v : Decimal} (h : v.InRange) : |v.value| < maxMagnitude := by
  rw [← magnitude_in_range_iff, magnitude_of_digitCount_le h.digits]
  exact h.size

/-- What has no more digits than the precision is in range as soon as it fits. -/
theorem fit_inRange {d : Decimal} (hd : digitCount d.digits ≤ precision) :
    Meets d.fit InRange Fault.IsOverflow := by
  have hround : d.round precision = d := round_of_digitCount_le hd
  refine d.fit_meets.eq_and.imp fun v hv => ?_
  rw [← hround] at hv
  exact inRange_of_fit hv.1

/-- What is rounded to the precision and then fitted is in range, or overflows. -/
theorem round_fit_inRange (d : Decimal) :
    Meets (d.round precision).fit InRange Fault.IsOverflow :=
  fit_inRange (digitCount_round_le (by decide) d)

theorem zero_inRange : zero.InRange :=
  ⟨by rw [zero, ofNat, digitCount_zero]; decide, by decide, by rfl⟩

theorem one_inRange : one.InRange :=
  ⟨digitCount_le (by decide) (by decide), by decide, by rfl⟩

/-! ## Quotients, powers and roots -/

theorem digitCount_div_le (a b : Decimal) : digitCount (a.div precision b).digits ≤ precision := by
  unfold div
  by_cases ha : a.digits = 0
  · simp only [ha, if_true, digitCount_zero]
    decide
  · simp only [ha, if_false]
    split
    · exact digitCount_round_le (by decide) _
    · exact digitCount_round_le (by decide) _

theorem digitCount_pow_ten_le {k : Nat} (h : k < precision) : digitCount (10 ^ k) ≤ precision :=
  digitCount_le (by decide) (Nat.pow_lt_pow_right (by decide) h)

theorem digitCount_powOne_le (b e : Decimal) (negative : Bool) :
    digitCount (powOne precision b e negative).digits ≤ precision := by
  unfold powOne
  refine digitCount_pow_ten_le ?_
  split
  · split
    · decide
    · exact lt_of_le_of_lt (min_le_right _ _) (by decide)
  · decide

/-- A power has no more digits than the precision. -/
theorem digitCount_pow_le {b e d : Decimal} (h : b.pow precision e = .value d) :
    digitCount d.digits ≤ precision := by
  have hone : digitCount 1 ≤ precision := digitCount_pow_ten_le (k := 0) (by decide)
  have hzero : digitCount 0 ≤ precision := by
    rw [digitCount_zero]
    decide
  have hround : ∀ u : Decimal, digitCount (u.round precision).digits ≤ precision :=
    digitCount_round_le (by decide)
  -- one case for each branch of the power: a fault, a constant, a power of ten, or what is rounded
  unfold pow at h
  dsimp only at h
  split at h
  · split at h
    · cases h
    · split at h
      · cases h
      · cases h
        exact hzero
  split at h
  · cases h
  split at h
  · cases h
    exact hone
  split at h
  · cases h
    exact digitCount_powOne_le _ _ _
  split at h
  · cases h
  · cases h
  · split at h
    · cases h
      exact hround _
    · split at h
      · cases h
        exact digitCount_pow_ten_le (by decide)
      · cases h
        exact hround _

/-- A quotient by anything but zero. -/
theorem quotient_inRange (a : Decimal) {b : Decimal} (hb : b.digits ≠ 0) :
    Meets (a.quotient b) InRange Fault.IsOverflow := by
  unfold quotient
  rw [if_neg hb]
  exact fit_inRange (digitCount_div_le a b)

theorem digitCount_sqrt_le (d : Decimal) : digitCount (d.sqrt precision).digits ≤ precision := by
  unfold sqrt
  by_cases hzero : d.digits = 0
  · simp only [hzero, if_true, digitCount_zero]
    decide
  · simp only [hzero, if_false]
    split
    · exact digitCount_round_le (by decide) _
    · exact digitCount_round_le (by decide) _

/-- A power of decimals is in range, or fails with a fault in arithmetic. -/
theorem power_inRange (b e : Decimal) : Meets (b.power e) InRange Fault.IsOverflow := by
  unfold power
  cases h : b.pow precision e with
  | value d => exact fit_inRange (digitCount_pow_le h)
  | vanishing negative =>
    refine fit_inRange ?_
    rw [digitCount_zero]
    decide
  | huge => exact rfl
  | undefined => exact rfl

/-- An approximate power is in range, unless it overflows or is a negative power of zero. -/
theorem approximatePower_inRange (b e : Decimal) :
    Meets (Number.approximatePower b e) InRange fun f =>
      f.IsOverflow ∨ f = .maths .divisionByZero ∧ b.digits = 0 ∧ e.isBelowZero = true := by
  unfold Number.approximatePower
  by_cases hb : b.digits = 0
  · rw [if_pos hb]
    by_cases he : e.isBelowZero = true
    · rw [if_pos he]
      exact .inr ⟨rfl, hb, he⟩
    · rw [if_neg he]
      exact zero_inRange
  · rw [if_neg hb]
    exact (power_inRange b e).mono (fun _ h => h) fun _ => .inl

end Decimal

/-! ## Fractions as decimals -/

namespace Number

/-- A fraction of two words is far from the largest decimal, so it has a decimal. -/
theorem exists_toDecimal_ratio {n d : Int} (hn : isWord n = true) (hd : d ≠ 0) :
    ∃ v, (ratio n d).toDecimal = .ok v := by
  have hden : (Decimal.ofInt d).digits ≠ 0 := Int.natAbs_ne_zero.mpr hd
  have hdiv := Decimal.abs_div_sub_le (p := precision) (by decide) (Decimal.ofInt n) hden
  rw [Decimal.value_ofInt, Decimal.value_ofInt] at hdiv
  have hword := abs_div_le_of_isWord hn hd
  have hfew : 7 * |(n / d : ℚ)| / 10 ^ precision ≤ 1 := by
    rw [precision, div_le_one (by norm_num)]
    linarith
  have htri := abs_sub_abs_le_abs_sub
    ((Decimal.ofInt n).div precision (Decimal.ofInt d)).value (n / d)
  have hfit := Decimal.fit_of_abs_le
    (Decimal.digitCount_div_le (Decimal.ofInt n) (Decimal.ofInt d)) (by linarith)
  exact ⟨_, by rw [toDecimal, Decimal.quotient, if_neg hden, hfit]⟩

theorem exists_toDecimal {q : ℚ} (h : Fits q) : ∃ v, (ofRat q).toDecimal = .ok v :=
  exists_toDecimal_ratio h.1 (ofRat_den_ne_zero q)

theorem toDecimal_inRange {q : ℚ} {v : Decimal} (h : (ofRat q).toDecimal = .ok v) : v.InRange :=
  (Decimal.quotient_inRange _ (Int.natAbs_ne_zero.mpr (ofRat_den_ne_zero q))).of_ok h

end Number
end Mathpad
