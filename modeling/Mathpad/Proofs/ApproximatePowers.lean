import Mathpad.Proofs.SeriesBounds
import Mathpad.Proofs.WholePowers

/-!
# Powers that go through the logarithm

Of a positive decimal of moderate size, every power with an exponent of at most one half is found,
and it is a positive decimal of moderate size again: the logarithm is small, so that nothing is out
of bounds, and an exponential is nowhere near zero.
-/
set_option autoImplicit false

namespace Mathpad

namespace Decimal

open Series

/-! ## Logarithms -/

/-- A decimal with the sign and the magnitude of an integer has its value. -/
theorem value_signed (v e : ℤ) : (⟨v < 0, v.natAbs, e⟩ : Decimal).value = v * 10 ^ e := by
  have hsigned : (⟨v < 0, v.natAbs, e⟩ : Decimal).signedDigits = v := by
    simp only [signedDigits, decide_eq_true_iff]
    split <;> omega
  rw [value, hsigned]

/-- A number in fixed point is worth its coefficient, moved behind the point. -/
theorem value_ofFixed (v : ℤ) (places : ℕ) : (ofFixed v places).value = v / 10 ^ places := by
  rw [ofFixed, value_signed, zpow_neg, zpow_natCast, div_eq_mul_inv]

/-- A decimal is the quotient of the two numbers that its logarithm is worked out from. -/
theorem abs_value_mul_pow (d : Decimal) :
    |d.value| * (10 ^ (-d.exponent).toNat : ℕ) = (d.digits * 10 ^ d.exponent.toNat : ℕ) := by
  rw [abs_value, ← pow_toNat_div (by norm_num)]
  push_cast
  field_simp

/-- The lengths of two numbers differ no more than their quotient allows. -/
theorem log2_le_add {n m k : ℕ} (hn : n ≠ 0) (h : n ≤ 2 ^ k * m) : n.log2 ≤ m.log2 + k := by
  have hlow : 2 ^ n.log2 ≤ n := Nat.log2_self_le hn
  have hhigh : m < 2 ^ (m.log2 + 1) := Nat.lt_log2_self
  have hlt : 2 ^ n.log2 < 2 ^ (m.log2 + k + 1) := by
    calc 2 ^ n.log2 ≤ 2 ^ k * m := hlow.trans h
      _ < 2 ^ k * 2 ^ (m.log2 + 1) := by gcongr
      _ = 2 ^ (m.log2 + k + 1) := by rw [← pow_add]; ring_nf
  have hlog := (Nat.pow_lt_pow_iff_right (by decide : 1 < 2)).mp hlt
  omega

/-- Where two numbers are within a power of two of each other, so are their logarithms. -/
theorem abs_log2_sub_le {n m k : ℕ} (hn : n ≠ 0) (hm : m ≠ 0) (h : n ≤ 2 ^ k * m)
    (h' : m ≤ 2 ^ k * n) : |(n.log2 : ℤ) - m.log2| ≤ k := by
  have hup := log2_le_add hn h
  have hdown := log2_le_add hm h'
  rw [abs_le]
  omega

/-- A number that is shifted to the left keeps its leading digit where that moves to. -/
theorem shifted_bounds {n : ℕ} (hn : n ≠ 0) (k : ℕ) :
    2 ^ (n.log2 + k) ≤ n * 2 ^ k ∧ n * 2 ^ k < 2 * 2 ^ (n.log2 + k) := by
  have hlow : 2 ^ n.log2 ≤ n := Nat.log2_self_le hn
  have hhigh : n < 2 ^ (n.log2 + 1) := Nat.lt_log2_self
  rw [pow_add, ← mul_assoc, ← pow_succ']
  exact ⟨by gcongr, by gcongr⟩

/-- Once a power of two is taken out, neither of the two numbers is more than twice the other. -/
theorem abs_sub_le_of_shifted {n m : ℕ} (hn : n ≠ 0) (hm : m ≠ 0) {twos : ℤ}
    (htwos : twos = n.log2 - m.log2) :
    3 * |(n : ℤ) * 2 ^ (-twos).toNat - m * 2 ^ twos.toNat| ≤
      |(n : ℤ) * 2 ^ (-twos).toNat + m * 2 ^ twos.toNat| := by
  obtain ⟨hnlow, hnhigh⟩ := shifted_bounds hn (-twos).toNat
  obtain ⟨hmlow, hmhigh⟩ := shifted_bounds hm twos.toNat
  have hlength : n.log2 + (-twos).toNat = m.log2 + twos.toNat := by omega
  rw [hlength] at hnlow hnhigh
  generalize hn' : n * 2 ^ (-twos).toNat = n' at hnlow hnhigh
  generalize hm' : m * 2 ^ twos.toNat = m' at hmlow hmhigh
  have hncast : (n : ℤ) * 2 ^ (-twos).toNat = n' := by rw [← hn']; push_cast; rfl
  have hmcast : (m : ℤ) * 2 ^ twos.toNat = m' := by rw [← hm']; push_cast; rfl
  rw [hncast, hmcast, abs_of_nonneg (by positivity : 0 ≤ (n' : ℤ) + m')]
  rcases abs_cases ((n' : ℤ) - m') with ⟨habs, -⟩ | ⟨habs, -⟩ <;> rw [habs] <;> omega

/-- The logarithm in fixed point, once it is known how many twos are taken out. -/
theorem abs_fixedLn_le {one : ℤ} (hone : 0 ≤ one) {n m : ℕ} (hn : n ≠ 0) (hm : m ≠ 0) {twos : ℤ}
    (htwos : twos = n.log2 - m.log2) (hlength : |twos| ≤ 70) :
    4 * |twos * lnTwo one + twiceArtanh one
      (n * 2 ^ (-twos).toNat - m * 2 ^ twos.toNat) (n * 2 ^ (-twos).toNat + m * 2 ^ twos.toNat)| ≤
      213 * one := by
  have hrest := abs_twiceArtanh_le_one hone (abs_sub_le_of_shifted hn hm htwos)
  have htwo : 4 * |lnTwo one| ≤ 3 * one := abs_twiceArtanh_le_one hone (by decide)
  generalize twiceArtanh one _ _ = rest at hrest ⊢
  have htri := abs_add_le (twos * lnTwo one) rest
  have hprod : |twos| * (4 * |lnTwo one|) ≤ 70 * (3 * one) := by gcongr
  rw [abs_mul] at htri
  linarith

/-- The logarithm of a decimal with no more than twenty-one digits before the point, or zeros behind
it. -/
theorem abs_ln_le {p : ℕ} (hp : 2 ≤ p) {d : Decimal} (hlow : 1 ≤ 10 ^ 21 * |d.value|)
    (hhigh : |d.value| ≤ 10 ^ 21) : |(d.ln p).value| ≤ 56 := by
  have hvalue := abs_value_mul_pow d
  obtain ⟨places, hplaces⟩ :
      ∃ places, places = p + guardDigits + placesForSmall (d.sub Decimal.one) := ⟨_, rfl⟩
  obtain ⟨n, hn⟩ : ∃ n, n = d.digits * 10 ^ d.exponent.toNat := ⟨_, rfl⟩
  obtain ⟨m, hm⟩ : ∃ m, m = 10 ^ (-d.exponent).toNat := ⟨_, rfl⟩
  obtain ⟨twos, htwos⟩ : ∃ twos : ℤ, twos = n.log2 - m.log2 := ⟨_, rfl⟩
  obtain ⟨one, hone⟩ : ∃ one : ℤ, one = 10 ^ places := ⟨_, rfl⟩
  rw [← hn, ← hm] at hvalue
  have hm0 : m ≠ 0 := by rw [hm]; positivity
  have hn0 : n ≠ 0 := by
    rintro rfl
    rw [Nat.cast_zero, mul_eq_zero, or_iff_left (by exact_mod_cast hm0)] at hvalue
    rw [hvalue] at hlow
    norm_num at hlow
  -- numerator and denominator are within seventy doublings of each other
  have hnm : (n : ℚ) ≤ 2 ^ 70 * m := by
    rw [← hvalue]
    gcongr
    exact hhigh.trans (by norm_num)
  have hmn : (m : ℚ) ≤ 2 ^ 70 * n := by
    calc (m : ℚ) = 1 * m := (one_mul _).symm
      _ ≤ 10 ^ 21 * |d.value| * m := by gcongr
      _ = 10 ^ 21 * n := by rw [mul_assoc, hvalue]
      _ ≤ 2 ^ 70 * n := by gcongr; norm_num
  have hlength : |twos| ≤ 70 :=
    htwos ▸ abs_log2_sub_le hn0 hm0 (by exact_mod_cast hnm) (by exact_mod_cast hmn)
  have hone0 : 0 < one := by rw [hone]; positivity
  have hsum := abs_fixedLn_le hone0.le hn0 hm0 htwos hlength
  have hln : d.ln p = (ofFixed (twos * lnTwo one + twiceArtanh one
      (n * 2 ^ (-twos).toNat - m * 2 ^ twos.toNat)
      (n * 2 ^ (-twos).toNat + m * 2 ^ twos.toNat)) places).round p := by
    rw [htwos, hone, hplaces, hm, hn]
    rfl
  -- only the size of the sum matters from here on
  generalize twos * lnTwo one + twiceArtanh one _ _ = sum at hsum hln
  have hscaled : |(ofFixed sum places).value| ≤ 213 / 4 := by
    have hcast : ((10 : ℚ) ^ places) = one := by rw [hone]; push_cast; rfl
    have hone' : (0 : ℚ) < one := by exact_mod_cast hone0
    have hsum' : 4 * |(sum : ℚ)| ≤ 213 * one := by exact_mod_cast hsum
    rw [value_ofFixed, hcast, abs_div, abs_of_pos hone', div_le_iff₀ hone']
    linarith
  have hround := abs_round_le hp (ofFixed sum places)
  rw [hln]
  linarith

/-! ## Exponentials -/

/-- A decimal in fixed point is cut off below. -/
theorem fixed_eq_floor (d : Decimal) (places : ℕ) : d.fixed places = ⌊d.value * 10 ^ places⌋ := by
  have hscaled : d.value * 10 ^ places = d.signedDigits * 10 ^ (d.exponent + places) := by
    rw [value, zpow_add₀ (by norm_num), zpow_natCast, mul_assoc]
  unfold fixed
  rw [hscaled]
  by_cases hshift : 0 ≤ d.exponent + places
  · obtain ⟨k, hk⟩ : ∃ k : ℕ, d.exponent + places = k := ⟨(d.exponent + places).toNat, by omega⟩
    simp only [hk, Int.natCast_nonneg, if_true, Int.toNat_natCast, zpow_natCast]
    exact_mod_cast (Int.floor_intCast (R := ℚ) (d.signedDigits * 10 ^ k)).symm
  · obtain ⟨k, hk⟩ : ∃ k : ℕ, d.exponent + places = -(k : ℤ) :=
      ⟨(-(d.exponent + places)).toNat, by omega⟩
    simp only [hshift, if_false]
    rw [hk, neg_neg, Int.toNat_natCast, zpow_neg, zpow_natCast, ← div_eq_mul_inv]
    exact_mod_cast (Rat.floor_intCast_div_natCast d.signedDigits (10 ^ k)).symm

/-- Less than a unit is cut off. -/
theorem abs_fixed_le {d : Decimal} (places : ℕ) {b : ℤ} (hd : |d.value| ≤ b) :
    |d.fixed places| ≤ b * 10 ^ places + 1 := by
  obtain ⟨hlow, hhigh⟩ := abs_le.mp hd
  have hpow : (0 : ℚ) < 10 ^ places := by positivity
  rw [fixed_eq_floor, abs_le]
  constructor
  · rw [Int.le_floor]
    push_cast
    nlinarith
  · have hle : (⌊d.value * 10 ^ places⌋ : ℚ) ≤ b * 10 ^ places :=
      (Int.floor_le _).trans (by gcongr)
    have hle' : ⌊d.value * 10 ^ places⌋ ≤ b * 10 ^ places := by exact_mod_cast hle
    omega

/-- What is left of a number after the nearest multiple of another one is taken out. -/
theorem abs_sub_nearest_le (v : ℤ) {t : ℤ} (ht : 0 < t) :
    2 * |v - (2 * v + t) / (2 * t) * t| ≤ t := by
  have hlow : (2 * v + t) / (2 * t) * (2 * t) ≤ 2 * v + t := Int.ediv_mul_le _ (by omega)
  have hhigh : 2 * v + t < ((2 * v + t) / (2 * t) + 1) * (2 * t) :=
    Int.lt_ediv_add_one_mul_self _ (by omega)
  generalize (2 * v + t) / (2 * t) = q at *
  have hdouble : |2 * (v - q * t)| ≤ t := by
    rw [abs_le]
    constructor <;> linarith
  rwa [abs_mul, abs_two] at hdouble

/-- No more than sixteen tens are taken out of an argument of at most thirty-one. -/
theorem abs_tens_le {one ten v tens : ℤ} (hone : 1 ≤ one) (hten : 2 * one ≤ ten)
    (hv : |v| ≤ 31 * one + 1) (hrest : 2 * |v - tens * ten| ≤ ten) : |tens| ≤ 16 := by
  have hpos : 0 < ten := by omega
  have htri : |tens * ten| ≤ |v| + |v - tens * ten| := by
    have hle := abs_sub v (v - tens * ten)
    rwa [sub_sub_cancel] at hle
  rw [abs_mul, abs_of_pos hpos] at htri
  by_contra hlarge
  have hprod : 17 * ten ≤ |tens| * ten := mul_le_mul_of_nonneg_right (by omega) hpos.le
  omega

/-- The exponential of a decimal of at most thirty-one. -/
theorem exp_bounds {p : ℕ} (hp : 2 ≤ p) {d : Decimal} (hd : |d.value| ≤ 31) :
    1 ≤ 10 ^ 18 * (exp p d).value ∧ (exp p d).value ≤ 10 ^ 18 := by
  obtain ⟨places, hplaces⟩ :
      ∃ places, places = p + guardDigits + min (2 * p) (placesForSmall d) := ⟨_, rfl⟩
  obtain ⟨one, hone⟩ : ∃ one : ℤ, one = 10 ^ places := ⟨_, rfl⟩
  obtain ⟨v, hv⟩ : ∃ v, v = d.fixed places := ⟨_, rfl⟩
  obtain ⟨tens, htens⟩ : ∃ tens, tens = (2 * v + lnTen one) / (2 * lnTen one) := ⟨_, rfl⟩
  obtain ⟨e, he⟩ : ∃ e, e = expTail one (v - tens * lnTen one) (termLimit one) 0 one := ⟨_, rfl⟩
  have hexp : exp p d = (⟨e < 0, e.natAbs, tens - places⟩ : Decimal).round p := by
    rw [he, htens, hv, hone, hplaces]
    rfl
  have hlarge : 1000 ≤ one := by
    rw [hone]
    calc (1000 : ℤ) = 10 ^ 3 := by norm_num
      _ ≤ 10 ^ places := pow_le_pow_right₀ (by norm_num) (by unfold guardDigits at hplaces; omega)
  obtain ⟨hten, hten'⟩ := lnTen_bounds (show 26 ≤ one by omega)
  have hrest : 2 * |v - tens * lnTen one| ≤ lnTen one :=
    htens ▸ abs_sub_nearest_le v (by omega : 0 < lnTen one)
  have hfixed : |v| ≤ 31 * one + 1 := hv ▸ hone ▸ abs_fixed_le places (by exact_mod_cast hd)
  obtain ⟨htenslow, htenshigh⟩ := abs_le.mp (abs_tens_le (by omega) hten hfixed hrest)
  have hlimit := le_termLimit one
  obtain ⟨helow, hehigh⟩ := Series.exp_bounds hlarge
    (by omega : 4 * |v - tens * lnTen one| ≤ 5 * one) (by omega : 3 ≤ termLimit one)
  rw [← he] at helow hehigh
  -- the rest of the power is between a fifth and five
  have hone0 : (0 : ℚ) < one := by exact_mod_cast (show 0 < one by omega)
  have hvalue : (⟨e < 0, e.natAbs, tens - places⟩ : Decimal).value = e / one * 10 ^ tens := by
    have hcast : ((10 : ℚ) ^ places) = one := by rw [hone]; push_cast; rfl
    rw [value_signed, zpow_sub₀ (by norm_num), zpow_natCast, hcast]
    ring
  have hfifth : (1 : ℚ) / 5 ≤ e / one := by
    rw [div_le_div_iff₀ (by norm_num) hone0]
    exact_mod_cast (by linarith : 1 * one ≤ e * 5)
  have hfive : (e : ℚ) / one ≤ 5 := by
    rw [div_le_iff₀ hone0]
    exact_mod_cast hehigh
  rw [hexp]
  generalize (⟨e < 0, e.natAbs, tens - places⟩ : Decimal) = x at hvalue ⊢
  have hpowlow : (10 : ℚ) ^ (-16 : ℤ) ≤ 10 ^ tens := zpow_le_zpow_right₀ (by norm_num) htenslow
  have hpowhigh : (10 : ℚ) ^ tens ≤ 10 ^ (16 : ℤ) := zpow_le_zpow_right₀ (by norm_num) htenshigh
  have hlow : 1 / 5 * (10 : ℚ) ^ (-16 : ℤ) ≤ x.value := by rw [hvalue]; gcongr
  have hhigh : x.value ≤ 5 * (10 : ℚ) ^ (16 : ℤ) := by rw [hvalue]; gcongr
  have hround := abs_le.mp (abs_round_sub_le_twentieth hp x)
  norm_num at hlow hhigh
  rw [abs_of_pos (by linarith)] at hround
  constructor <;> linarith

/-! ## Powers -/

theorem pow_leadingExponent_le {d : Decimal} (hd : d.digits ≠ 0) :
    (10 : ℚ) ^ d.leadingExponent ≤ |d.value| := by
  have hcount : ((10 ^ (digitCount d.digits - 1) : ℕ) : ℚ) ≤ d.digits := by
    exact_mod_cast pow_digitCount_le hd
  have hpos := digitCount_pos d.digits
  have hsplit : d.leadingExponent = (digitCount d.digits - 1 : ℕ) + d.exponent := by
    unfold leadingExponent
    omega
  rw [abs_value, hsplit, zpow_add₀ (by norm_num), zpow_natCast]
  push_cast at hcount
  gcongr

theorem digits_ne_zero {d : Decimal} (hd : d.value ≠ 0) : d.digits ≠ 0 := by
  intro hzero
  exact hd (value_eq_zero hzero)

section PositiveBase

variable {b e : Decimal}

/-- A proper fraction is no whole number. -/
theorem whole?_of_proper (hpos : 0 < e.value) (hlt : e.value < 1) : e.whole? = none := by
  rw [Option.eq_none_iff_forall_ne_some]
  intro m hm
  have hvalue := whole?_eq_some_iff.mp hm
  have hm0 : (0 : ℤ) < m := by exact_mod_cast hvalue ▸ hpos
  have hm1 : m < 1 := by exact_mod_cast hvalue ▸ hlt
  omega

/-- A power is not out of bounds if its logarithm is small. -/
theorem outOfBounds_of_le (h : |(((b.ln 10).mul e).round 10).value| ≤ 31) :
    outOfBounds b e = none := by
  refine if_neg ?_
  rintro ⟨hlead, hdigits⟩
  have hle := (pow_leadingExponent_le hdigits).trans h
  have hlarge : (10 : ℚ) ^ (4 : ℤ) ≤ _ := zpow_le_zpow_right₀ (by norm_num) hlead
  norm_num at hlarge
  linarith

/-- A power that is not whole and not out of bounds is one, or an exponential. -/
theorem pow_cases (hsign : b.negative = false) (hb : b.digits ≠ 0) (he : e.digits ≠ 0)
    (hwhole : e.whole? = none) (hbounds : outOfBounds b e = none) :
    ∃ d, b.pow precision e = .value d ∧ (d.value = 1 ∨ ∃ work, 2 ≤ work ∧
      d = (exp work (((b.ln work).mul e).round work)).round precision) := by
  have hsame : ({ b with negative := false } : Decimal) = b := by
    rw [← hsign]
  obtain ⟨work, hwork⟩ : ∃ work, work = max (digitCount b.digits) precision + 23 := ⟨_, rfl⟩
  have hone : (⟨false, 10 ^ 27, -27⟩ : Decimal).value = 1 := by norm_num [value_eq]
  unfold pow
  simp only [hwhole, hsign, hsame, hbounds, hb, he, if_false, Bool.and_false, Bool.false_eq_true,
    false_and, ← hwork]
  split
  · have hpower : powOne precision b e false = ⟨false, 10 ^ 27, -27⟩ := by
      simp only [powOne, hwhole]
      rfl
    exact ⟨_, rfl, .inl (hpower ▸ hone)⟩
  split
  · exact ⟨_, rfl, .inl hone⟩
  · exact ⟨_, rfl, .inr ⟨work, by omega, rfl⟩⟩

/-- The logarithm of the power. -/
theorem abs_exponent_le {p : ℕ} (hp : 2 ≤ p) (hlow : 1 ≤ 10 ^ 21 * |b.value|)
    (hhigh : |b.value| ≤ 10 ^ 21) (he : |e.value| ≤ 21 / 40) :
    |(((b.ln p).mul e).round p).value| ≤ 31 := by
  have hln := abs_ln_le hp hlow hhigh
  have hround := abs_round_le hp ((b.ln p).mul e)
  have hprod : |(b.ln p).value| * |e.value| ≤ 56 * (21 / 40) := by gcongr
  rw [value_mul, abs_mul] at hround
  linarith

/-- A positive decimal to the power of one half or less. -/
theorem pow_bounds (hsign : b.negative = false) (hlow : 1 ≤ 10 ^ 21 * b.value)
    (hhigh : b.value ≤ 10 ^ 21) (he0 : 0 < e.value) (he : e.value ≤ 21 / 40) :
    ∃ d, b.pow precision e = .value d ∧ 1 ≤ 10 ^ 19 * d.value ∧ d.value ≤ 10 ^ 19 := by
  have hb0 : 0 < b.value := by
    by_contra hneg
    linarith
  have habs : |b.value| = b.value := abs_of_pos hb0
  have hmoderate : ∀ {p : ℕ}, 2 ≤ p → |(((b.ln p).mul e).round p).value| ≤ 31 := fun hp =>
    abs_exponent_le hp (by rwa [habs]) (by rwa [habs]) (by rwa [abs_of_pos he0])
  obtain ⟨d, hd, hcases⟩ := pow_cases hsign (digits_ne_zero hb0.ne') (digits_ne_zero he0.ne')
    (whole?_of_proper he0 (by linarith)) (outOfBounds_of_le (hmoderate (by decide)))
  refine ⟨d, hd, ?_⟩
  rcases hcases with hone | ⟨work, hwork, rfl⟩
  · rw [hone]
    norm_num
  · obtain ⟨hexplow, hexphigh⟩ := exp_bounds hwork (hmoderate hwork)
    generalize exp work (((b.ln work).mul e).round work) = r at hexplow hexphigh ⊢
    have hround := abs_le.mp (abs_round_sub_le_twentieth (p := precision) (by decide) r)
    rw [abs_of_pos (by linarith)] at hround
    constructor <;> linarith

/-- Such a power fits, and is above zero. -/
theorem exists_power (hsign : b.negative = false) (hlow : 1 ≤ 10 ^ 21 * b.value)
    (hhigh : b.value ≤ 10 ^ 21) (he0 : 0 < e.value) (he : e.value ≤ 21 / 40) :
    ∃ w, b.power e = .ok w ∧ w.InRange ∧ 0 < w.value := by
  obtain ⟨d, hd, hdlow, hdhigh⟩ := pow_bounds hsign hlow hhigh he0 he
  have hd0 : 0 < d.value := by
    by_contra hneg
    linarith
  have hfit : d.fit = .ok d.placed := by
    refine fit_of_abs_le (digitCount_pow_le hd) ?_
    rw [abs_of_pos hd0]
    linarith
  have hpower : b.power e = .ok d.placed := by rw [power, hd, ← hfit]
  have hplaced := abs_le.mp (abs_placed_sub_le d)
  norm_num [maxPlaces] at hplaced
  exact ⟨d.placed, hpower, (power_inRange b e).of_ok hpower, by linarith⟩

end PositiveBase

end Decimal

end Mathpad
