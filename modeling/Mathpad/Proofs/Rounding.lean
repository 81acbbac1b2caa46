import Mathpad.Proofs.Decimals

/-!
# Decimals that stay as they are

What comes out of rounding and fitting has few enough digits and places, and so it passes
through both again unchanged. Multiplying it by one gives it back digit for digit. Adding
zero to it may write it with other digits, but it neither overflows nor becomes zero.
-/
set_option autoImplicit false

namespace Mathpad.Decimal

/-! ## Counting digits -/

/-- A number is below the power of ten with as many zeros as it has digits. -/
theorem lt_pow_digitCount (n : Nat) : n < 10 ^ digitCount n := by
  induction n using digitCount.induct with
  | case1 n hsmall =>
    rw [digitCount, if_pos hsmall, pow_one]
    exact hsmall
  | case2 n hlarge ih =>
    rw [digitCount, if_neg hlarge, pow_succ]
    omega

theorem lt_pow_of_digitCount_le {n p : Nat} (h : digitCount n ≤ p) : n < 10 ^ p :=
  lt_of_lt_of_le (lt_pow_digitCount n) (Nat.pow_le_pow_right (by norm_num) h)

/-- Each power of ten adds a digit. -/
theorem digitCount_mul_pow {n : Nat} (hn : n ≠ 0) (k : Nat) :
    digitCount (n * 10 ^ k) = digitCount n + k := by
  induction k with
  | zero => rw [pow_zero, mul_one, Nat.add_zero]
  | succ k ih =>
    have hten : n * 10 ^ (k + 1) = n * 10 ^ k * 10 := by ring
    have hpos : 1 ≤ n * 10 ^ k := Nat.mul_pos (by omega) (Nat.pos_of_ne_zero (by positivity))
    rw [hten, digitCount, if_neg (by omega), Nat.mul_div_cancel _ (by norm_num), ih]
    rfl

/-! ## Rounding -/

theorem divRound_mul (n : Nat) {m : Nat} (hm : 0 < m) : divRound (n * m) m = n := by
  unfold divRound
  rw [Nat.mul_mod_left, Nat.mul_div_cancel _ hm, if_neg]
  omega

theorem divRound_le (n d : Nat) : divRound n d ≤ n / d + 1 := by
  unfold divRound
  split
  · exact le_refl _
  · exact Nat.le_succ _

/-- Rounding to `p` digits leaves `p` digits at most. -/
theorem digitCount_round_le {p : Nat} (hp : 1 ≤ p) (d : Decimal) :
    digitCount (d.round p).digits ≤ p := by
  unfold round
  by_cases hfew : digitCount d.digits - p = 0
  · simp only [hfew, if_true]
    omega
  · simp only [hfew, if_false]
    by_cases hcarry : dropDigits d.digits (digitCount d.digits - p) = 10 ^ p
    · rw [if_pos hcarry]
      exact digitCount_le hp (Nat.pow_lt_pow_right (by norm_num) (by omega))
    · rw [if_neg hcarry]
      refine digitCount_le hp (lt_of_le_of_ne ?_ hcarry)
      unfold dropDigits
      rw [if_neg (by omega)]
      refine le_trans (divRound_le _ _) ?_
      -- what is left of the digits after some were dropped, before the carry
      have hsplit : digitCount d.digits = p + (digitCount d.digits - p) := by omega
      have hlt := lt_pow_digitCount d.digits
      rw [hsplit, pow_add] at hlt
      have hdiv := Nat.div_lt_of_lt_mul (by rw [mul_comm]; exact hlt)
      exact hdiv

/-- Rounding never adds places. -/
theorem negative_round (p : Nat) (d : Decimal) : (d.round p).negative = d.negative := by
  unfold round
  dsimp only
  split
  · rfl
  · split <;> rfl

/-- Rounding only takes digits away at the end, so the exponent does not become lower. -/
theorem exponent_le_round (p : Nat) (d : Decimal) : d.exponent ≤ (d.round p).exponent := by
  unfold round
  dsimp only
  split
  · exact le_refl _
  · split <;> simp only <;> omega

/-- A coefficient that is short but for its final zeros loses only some of those. -/
theorem round_mul_pow {p n k : Nat} (hn : n ≠ 0) (hcount : digitCount n ≤ p)
    (negative : Bool) (e : Int) :
    ∃ x, x ≤ k ∧
      (⟨negative, n * 10 ^ k, e⟩ : Decimal).round p = ⟨negative, n * 10 ^ (k - x), e + x⟩ := by
  have hdigits := digitCount_mul_pow hn k
  obtain ⟨x, hx⟩ : ∃ x, x = digitCount n + k - p := ⟨_, rfl⟩
  have hxk : x ≤ k := by omega
  refine ⟨x, hxk, ?_⟩
  unfold round
  simp only [hdigits, ← hx]
  by_cases hzero : x = 0
  · rw [if_pos hzero, hzero, Nat.sub_zero, Nat.cast_zero, Int.add_zero]
  · have hsplit : n * 10 ^ k = n * 10 ^ (k - x) * 10 ^ x := by
      rw [mul_assoc, ← pow_add, Nat.sub_add_cancel hxk]
    -- only zeros are dropped, so nothing is rounded
    have hdrop : dropDigits (n * 10 ^ k) x = n * 10 ^ (k - x) := by
      unfold dropDigits
      rw [if_neg (by omega), hsplit]
      exact divRound_mul _ (by positivity)
    have hcount' : digitCount (n * 10 ^ (k - x)) ≤ p := by
      rw [digitCount_mul_pow hn]
      omega
    have hcarry : ¬n * 10 ^ (k - x) = 10 ^ p := ne_of_lt (lt_pow_of_digitCount_le hcount')
    rw [if_neg hzero, hdrop, if_neg hcarry]

/-! ## Fitting -/

/-- A decimal that rounding and fitting leave alone. -/
structure InRange (v : Decimal) : Prop where
  digits : digitCount v.digits ≤ precision
  places : -(maxPlaces : Int) ≤ v.exponent
  size : (ofNat maxMagnitude).lt ⟨false, v.digits, v.exponent⟩ = false

theorem magnitude_of_digitCount_le {p : Nat} {v : Decimal} (h : digitCount v.digits ≤ p) :
    v.magnitude p = ⟨false, v.digits, v.exponent⟩ :=
  round_of_digitCount_le h

/-- A decimal in range is fitted without any change. -/
theorem fit_of_inRange {v : Decimal} (h : v.InRange) : v.fit = .ok v := by
  have hplaces : ¬v.exponent < -(maxPlaces : Int) := not_lt.mpr h.places
  have hsize : ¬(ofNat maxMagnitude).lt (v.magnitude precision) = true := by
    rw [magnitude_of_digitCount_le h.digits, h.size]
    exact Bool.false_ne_true
  unfold fit fit?
  simp [hplaces, hsize]

theorem round_fit_of_inRange {v : Decimal} (h : v.InRange) : (v.round precision).fit = .ok v := by
  rw [round_of_digitCount_le h.digits, fit_of_inRange h]

/-- A decimal that is written with as many places as there may be. -/
def placed (d : Decimal) : Decimal :=
  if d.exponent < -(maxPlaces : Int) then d.atPlaces maxPlaces else d

/-- With a number of places, the exponent is minus that number. -/
theorem atPlaces_exponent (places : Nat) (d : Decimal) :
    (d.atPlaces places).exponent = -places := by
  unfold atPlaces
  by_cases hshift : 0 ≤ d.exponent + places
  · simp only [hshift, if_true]
  · simp only [hshift, if_false]

/-- What fitting gives is the decimal with the permitted places, if that has no more digits than the
precision and is not too large. -/
theorem fit_eq_ok {d v : Decimal} (h : d.fit = .ok v) :
    v = d.placed ∧
      ¬(d.exponent < -(maxPlaces : Int) ∧ precision < digitCount d.placed.digits) ∧
      (ofNat maxMagnitude).lt (d.placed.magnitude precision) = false := by
  have hfit : d.fit? = .ok v := by
    unfold fit at h
    cases hd : d.fit? with
    | ok w =>
      rw [hd] at h
      rw [Except.ok.inj h]
    | error e =>
      rw [hd] at h
      cases h
  change (if d.exponent < -(maxPlaces : Int) ∧ precision < digitCount d.placed.digits then
      .error Misfit.tooManyDigits
    else if (ofNat maxMagnitude).lt (d.placed.magnitude precision) then .error Misfit.tooLarge
    else .ok d.placed) = Except.ok v at hfit
  by_cases hmany : d.exponent < -(maxPlaces : Int) ∧ precision < digitCount d.placed.digits
  · rw [if_pos hmany] at hfit
    cases hfit
  · rw [if_neg hmany] at hfit
    by_cases hlarge : (ofNat maxMagnitude).lt (d.placed.magnitude precision) = true
    · rw [if_pos hlarge] at hfit
      cases hfit
    · rw [if_neg hlarge] at hfit
      exact ⟨(Except.ok.inj hfit).symm, hmany, Bool.eq_false_iff.mpr hlarge⟩

/-- Taking away places takes away digits, and at most leaves the first one behind. -/
theorem digitCount_placed_le {d : Decimal} (h : digitCount d.digits ≤ precision) :
    digitCount d.placed.digits ≤ precision := by
  unfold placed
  by_cases hlong : d.exponent < -(maxPlaces : Int)
  · have hshift : ¬0 ≤ d.exponent + (maxPlaces : Int) := by omega
    obtain ⟨k, hk⟩ : ∃ k, (-(d.exponent + (maxPlaces : Int))).toNat = k + 1 :=
      ⟨(-(d.exponent + (maxPlaces : Int))).toNat - 1, by omega⟩
    rw [if_pos hlong, atPlaces]
    simp only [if_neg hshift, hk]
    refine digitCount_le (by decide) ?_
    have hlt : d.digits < 10 ^ 27 * 10 := lt_pow_of_digitCount_le h
    unfold dropDigits
    split
    · decide
    · have hle := divRound_le d.digits (10 ^ (k + 1))
      have hdiv : d.digits / 10 ^ (k + 1) ≤ d.digits / 10 :=
        Nat.div_le_div_left (Nat.le_self_pow (by omega) 10) (by decide)
      have hpow : precision = 28 := rfl
      rw [hpow]
      omega
  · rw [if_neg hlong]
    exact h

/-- A decimal with no more digits than the precision has no place only if it is too large. -/
theorem fit?_of_digitCount_le {d : Decimal} (h : digitCount d.digits ≤ precision) :
    d.fit? = if (ofNat maxMagnitude).lt (d.placed.magnitude precision) then .error .tooLarge
      else .ok d.placed := by
  change (if d.exponent < -(maxPlaces : Int) ∧ precision < digitCount d.placed.digits then
      Except.error Misfit.tooManyDigits
    else if (ofNat maxMagnitude).lt (d.placed.magnitude precision) then .error Misfit.tooLarge
    else .ok d.placed) = _
  rw [if_neg fun hmany => absurd hmany.2 (not_lt.mpr (digitCount_placed_le h))]

/-- What rounding and fitting give is in range. -/
theorem inRange_of_fit {d v : Decimal} (h : (d.round precision).fit = .ok v) : v.InRange := by
  have hround : digitCount (d.round precision).digits ≤ precision :=
    digitCount_round_le (by decide) d
  obtain ⟨rfl, -, hsize⟩ := fit_eq_ok h
  have hdigits := digitCount_placed_le hround
  refine ⟨hdigits, ?_, ?_⟩
  · unfold placed
    by_cases hlong : (d.round precision).exponent < -(maxPlaces : Int)
    · rw [if_pos hlong]
      rw [atPlaces_exponent]
    · rw [if_neg hlong]
      exact not_lt.mp hlong
  · rw [← magnitude_of_digitCount_le hdigits]
    exact hsize

/-! ## Times one and plus zero -/

theorem mul_ofInt_one (v : Decimal) : (ofInt 1).mul v = v := by
  cases v with
  | mk negative digits exponent => simp [mul, ofInt]

/-- Measured in smaller units, the magnitude has more zeros. -/
theorem natAbs_units (v : Decimal) (e : Int) :
    (v.units e).natAbs = v.digits * 10 ^ (v.exponent - e).toNat := by
  have hsigned : v.signedDigits.natAbs = v.digits := by
    unfold signedDigits
    split
    · rw [Int.natAbs_neg, Int.natAbs_natCast]
    · rw [Int.natAbs_natCast]
  unfold units
  rw [Int.natAbs_mul, hsigned, Int.natAbs_pow]
  rfl

/-- Zero plus a decimal has the digits of the decimal, with the zeros in front of the point written
out. -/
theorem zero_add_eq (v : Decimal) :
    ∃ sign, (ofInt 0).add v
      = ⟨sign, v.digits * 10 ^ (v.exponent - min 0 v.exponent).toNat, min 0 v.exponent⟩ := by
  have hdigits : ((ofInt 0).add v).digits
      = v.digits * 10 ^ (v.exponent - min 0 v.exponent).toNat := by
    change ((ofInt 0).units _ + v.units _).natAbs = _
    have hzero : ∀ e, (ofInt 0).units e = 0 := fun e => zero_mul _
    rw [hzero, zero_add, natAbs_units]
    rfl
  rw [← hdigits]
  exact ⟨((ofInt 0).add v).negative, rfl⟩

/-- The size of a decimal does not depend on how many zeros it is written with. -/
theorem lt_mul_pow (m n : Nat) {k x : Nat} (hx : x ≤ k) :
    (ofNat m).lt ⟨false, n * 10 ^ (k - x), x⟩ = (ofNat m).lt ⟨false, n, k⟩ := by
  have hunits : ∀ (c y : Nat), (⟨false, c, y⟩ : Decimal).units 0 = ((c * 10 ^ y : Nat) : Int) := by
    intro c y
    unfold units
    rw [sub_zero, Int.toNat_natCast]
    push_cast
    rfl
  have hmin : ∀ y : Nat, min (0 : Int) (y : Int) = 0 := fun y => min_eq_left (Int.natCast_nonneg y)
  have horder : (ofNat m).order ⟨false, n * 10 ^ (k - x), x⟩ = (ofNat m).order ⟨false, n, k⟩ := by
    unfold order
    change compare ((ofNat m).units (min 0 (x : Int))) (units _ (min 0 (x : Int)))
      = compare ((ofNat m).units (min 0 (k : Int))) (units _ (min 0 (k : Int)))
    rw [hmin, hmin, hunits, hunits, mul_assoc, ← pow_add, Nat.sub_add_cancel hx]
  unfold lt
  rw [horder]

/-- Zero plus a decimal in range is a decimal in range, and zero only if that was. -/
theorem zero_add_inRange {v : Decimal} (h : v.InRange) :
    ∃ w, (((ofInt 0).add v).round precision).fit = .ok w ∧ w.isZero = v.isZero := by
  obtain ⟨sign, hadd⟩ := zero_add_eq v
  rw [hadd]
  -- with a positive exponent the zeros that it stands for are written out and, where there is
  -- no room for them, rounded off again
  by_cases hexp : v.exponent ≤ 0
  · rw [min_eq_right hexp, sub_self, Int.toNat_zero, pow_zero, mul_one]
    have hsame : InRange ⟨sign, v.digits, v.exponent⟩ := ⟨h.digits, h.places, h.size⟩
    exact ⟨_, round_fit_of_inRange hsame, rfl⟩
  · rw [min_eq_left (by omega), sub_zero]
    obtain ⟨k, hk⟩ : ∃ k : Nat, v.exponent = k := ⟨v.exponent.toNat, by omega⟩
    rw [hk, Int.toNat_natCast]
    by_cases hzero : v.digits = 0
    · rw [hzero, zero_mul]
      have hshort : digitCount 0 ≤ precision := digitCount_le (by decide) (by positivity)
      have hin : InRange ⟨sign, 0, 0⟩ := ⟨hshort, by change -(maxPlaces : Int) ≤ 0; decide, by rfl⟩
      refine ⟨_, round_fit_of_inRange hin, ?_⟩
      unfold isZero
      rw [hzero]
    · obtain ⟨x, hx, hround⟩ := round_mul_pow (k := k) hzero h.digits sign 0
      have hdigits := digitCount_round_le (p := precision) (by decide)
        ⟨sign, v.digits * 10 ^ k, 0⟩
      rw [hround] at hdigits ⊢
      rw [zero_add] at hdigits ⊢
      have hin : InRange ⟨sign, v.digits * 10 ^ (k - x), x⟩ := by
        refine ⟨hdigits, le_trans (by decide) (Int.natCast_nonneg x), ?_⟩
        rw [lt_mul_pow _ _ hx, ← hk]
        exact h.size
      refine ⟨_, fit_of_inRange hin, ?_⟩
      unfold isZero
      have hpos : v.digits * 10 ^ (k - x) ≠ 0 := by positivity
      rw [beq_eq_false_iff_ne.mpr hpos, beq_eq_false_iff_ne.mpr hzero]

end Mathpad.Decimal
