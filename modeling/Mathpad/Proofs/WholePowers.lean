import Mathlib.Data.Sign.Basic
import Mathpad.Proofs.Arithmetic
import Mathpad.Proofs.HalfEven
import Mathpad.Proofs.PlainNotation

/-!
# Powers with whole exponents

A power whose exponent has a whole value, however that is written, has the sign of the integer power
or is zero where it was too small for the places. The sign is a flag that is set from the parity of
the exponent, by each of the ways in which a power is worked out. What is missing among them is a
way for a negative base and a decimal exponent beyond the words: there the power is called imaginary.
-/
set_option autoImplicit false

namespace Mathpad

/-! ## Signs -/

/-- The number `q` has the sign of `r`, unless it is zero. -/
def TakesSign (q r : ℚ) : Prop := q = 0 ∨ SignType.sign q = SignType.sign r

namespace TakesSign

variable {q r s : ℚ}

theorem refl (q : ℚ) : TakesSign q q := .inr rfl

theorem trans (h : TakesSign q r) (h' : TakesSign r s) : TakesSign q s := by
  rcases h with h | h
  · exact .inl h
  rcases h' with rfl | h'
  · rw [sign_zero, sign_eq_zero_iff] at h
    exact .inl h
  · exact .inr (h.trans h')

theorem pow (h : TakesSign q r) {n : ℕ} (hn : n ≠ 0) : TakesSign (q ^ n) (r ^ n) := by
  rcases h with rfl | h
  · exact .inl (zero_pow hn)
  · exact .inr (by rw [sign_pow, sign_pow, h])

/-- Whole powers take signs as their bases do, if the first base is not zero. -/
theorem zpow (h : TakesSign q r) (hq : q ≠ 0) (m : ℤ) : TakesSign (q ^ m) (r ^ m) := by
  have hsign : ∀ t : ℚ, SignType.sign (t ^ m) = SignType.sign t ^ m :=
    fun t => map_zpow₀ signHom t m
  exact .inr (by rw [hsign, hsign, h.resolve_left hq])

/-- Products with a third number take signs as the two numbers do. -/
theorem mul_right (h : TakesSign q r) (s : ℚ) : TakesSign (q * s) (r * s) := by
  rcases h with rfl | h
  · exact .inl (zero_mul s)
  · exact .inr (by rw [sign_mul, sign_mul, h])

theorem neg_of_neg (h : TakesSign q r) (hq : q < 0) : r < 0 := by
  have hsign := h.resolve_left hq.ne
  rwa [sign_neg hq, eq_comm, sign_eq_neg_one_iff] at hsign

end TakesSign

namespace Decimal

/-- A decimal without a minus sign and other than zero is above zero. -/
theorem value_pos {v : Decimal} (hsign : v.negative = false) (hdigits : v.digits ≠ 0) :
    0 < v.value := by
  have habs : 0 < |v.value| := by
    rw [abs_value]
    have hpos : (0 : ℚ) < v.digits := by exact_mod_cast Nat.pos_of_ne_zero hdigits
    positivity
  rw [value_eq_abs, hsign]
  simpa using habs

theorem value_neg {v : Decimal} (hsign : v.negative = true) (hdigits : v.digits ≠ 0) :
    v.value < 0 :=
  (isBelowZero_iff v).mp (by simp [isBelowZero, hsign, hdigits])

theorem value_eq_zero {v : Decimal} (h : v.digits = 0) : v.value = 0 :=
  (isZero_iff v).mp (beq_iff_eq.mpr h)

theorem value_one : one.value = 1 := by
  simp [one, ofNat, value_eq]

/-! ## Whole values -/

/-- Of a decimal with places a whole number is left if the digits are a multiple of the unit. -/
theorem whole?_of_places {v : Decimal} {k : ℕ} (hk : 0 < k) (hexp : v.exponent = -(k : ℤ)) {m : ℤ} :
    v.whole? = some m ↔ v.signedDigits = m * 10 ^ k := by
  obtain ⟨negative, digits, exponent⟩ := v
  obtain rfl : exponent = -(k : ℤ) := hexp
  -- the power of ten gets a name, so that nothing computes with it
  obtain ⟨unit, hunit⟩ : ∃ unit, unit = 10 ^ k := ⟨_, rfl⟩
  have hpos : 0 < unit := by rw [hunit]; positivity
  have hpart : wholePart ⟨negative, digits, -(k : ℤ)⟩ = (digits / unit, digits % unit != 0) := by
    have hneg : ¬0 ≤ -(k : ℤ) := by omega
    simp only [wholePart, if_neg hneg, neg_neg, Int.toNat_natCast, ← hunit]
  have hcast : (10 : ℤ) ^ k = unit := by rw [hunit, Nat.cast_pow, Nat.cast_ofNat]
  rw [whole?, hpart, signedDigits, hcast]
  by_cases hdvd : unit ∣ digits
  · obtain ⟨q, rfl⟩ := hdvd
    have hfactor : (if negative then -((unit * q : ℕ) : ℤ) else (unit * q : ℕ)) =
        (if negative then -(q : ℤ) else q) * unit := by
      cases negative <;> simp [mul_comm]
    rw [Nat.mul_mod_right, Nat.mul_div_cancel_left q hpos, hfactor,
      mul_left_inj' (by exact_mod_cast hpos.ne')]
    exact Option.some_inj
  · have hmod : (digits % unit != 0) = true :=
      bne_iff_ne.mpr fun h => hdvd (Nat.dvd_of_mod_eq_zero h)
    rw [hmod]
    refine iff_of_false (by simp) fun h => hdvd ⟨m.natAbs, ?_⟩
    have hnat := congrArg Int.natAbs h
    rw [Int.natAbs_mul, Int.natAbs_natCast, mul_comm] at hnat
    rw [← hnat]
    cases negative <;> simp

/-- A decimal is a whole number if and only if its value is. -/
theorem whole?_eq_some_iff {v : Decimal} {m : ℤ} : v.whole? = some m ↔ v.value = m := by
  by_cases hexp : 0 ≤ v.exponent
  · obtain ⟨k, hk⟩ : ∃ k : ℕ, v.exponent = k := ⟨v.exponent.toNat, by omega⟩
    have hwhole : v.whole? = some (v.signedDigits * 10 ^ k) := by
      rw [whole?, wholePart, if_pos hexp, hk, signedDigits]
      cases v.negative <;> simp
    rw [hwhole, Option.some_inj, value, hk, zpow_natCast]
    exact_mod_cast Iff.rfl
  · obtain ⟨k, hk⟩ : ∃ k : ℕ, v.exponent = -(k : ℤ) := ⟨(-v.exponent).toNat, by omega⟩
    rw [whole?_of_places (by omega) hk, value, hk, zpow_neg, zpow_natCast, ← div_eq_mul_inv,
      div_eq_iff (by positivity)]
    exact_mod_cast Iff.rfl

/-- A power takes its sign from the integer power. -/
theorem power_takesSign {v e w : Decimal} {m : ℤ} (he : e.whole? = some m)
    (h : v.power e = .ok w) : TakesSign w.value (v.value ^ m) := by
  by_cases hw : w.digits = 0
  · exact .inl (value_eq_zero hw)
  right
  obtain ⟨hv, hsign⟩ := sign_of_power he h hw
  by_cases hneg : v.negative = true
  · have hvalue := value_neg hneg hv
    rcases Int.even_or_odd m with heven | hodd
    · rw [hneg, Int.even_iff.mp heven] at hsign
      rw [sign_pos (value_pos hsign hw), sign_pos (heven.zpow_pos hvalue.ne)]
    · rw [hneg, Int.odd_iff.mp hodd] at hsign
      rw [sign_neg (value_neg hsign hw), sign_neg (hodd.zpow_neg hvalue)]
  · rw [Bool.not_eq_true] at hneg
    rw [hneg, Bool.false_and] at hsign
    rw [sign_pos (value_pos hsign hw), sign_pos (zpow_pos (value_pos hneg hv) m)]

end Decimal

namespace Number

/-- A number is negative if and only if its value is, as zero has no sign that counts. -/
theorem isNegative_iff {x : Number} (hx : x.HasDenominator) : x.isNegative = true ↔ x.value < 0 := by
  cases x with
  | ratio n d =>
    have hd : (d : ℚ) ≠ 0 := Int.cast_ne_zero.mpr hx
    rw [value, div_neg_iff, Int.cast_pos, Int.cast_lt_zero, Int.cast_pos, Int.cast_lt_zero, isNegative]
    have hd' : d ≠ 0 := hx
    simp
    omega
  | decimal v a => exact Decimal.isBelowZero_iff v

/-- What a decimal keeps of a number has its sign or is zero. -/
theorem kept_takesSign (q : ℚ) : TakesSign (kept q) q := by
  by_cases hzero : kept q = 0
  · exact .inl hzero
  rcases lt_trichotomy q 0 with hq | rfl | hq
  · have hneg := kept_nonneg (neg_nonneg.mpr hq.le)
    rw [kept_neg, neg_nonneg] at hneg
    exact .inr (by rw [sign_neg hq, sign_neg (lt_of_le_of_ne hneg hzero)])
  · refine absurd ?_ hzero
    have hneg := kept_neg 0
    rw [neg_zero] at hneg
    linarith
  · exact .inr (by rw [sign_pos hq, sign_pos (lt_of_le_of_ne (kept_nonneg hq.le) (Ne.symm hzero))])

/-! ## Powers of numbers -/

theorem value_one : one.value = 1 := by
  rw [one, value, Int.cast_one, div_one]

/-- Some other fault than that there is no such real number. -/
def IsReal (f : Fault) : Prop := f ≠ .maths .imaginary

/-- An overflow does not say that there is no real number. -/
theorem IsReal.of_isOverflow {f : Fault} (h : f.IsOverflow) : IsReal f := by
  rw [IsReal, show f = .maths .overflow from h]
  simp

/-- A division by zero does not say that there is no real number. -/
theorem isReal_divisionByZero : IsReal (.maths .divisionByZero) := by
  simp [IsReal]

/-- A fraction that is brought to lowest terms. -/
theorem simplify_value (n : ℤ) {d : ℤ} (hd : d ≠ 0) :
    Meets (simplify (.ratio n d)) (fun y => y.HasDenominator ∧ y.value = n / d) IsReal :=
  (simplify_yields n hd).mono (fun y hy => by
    rw [hy.1]
    exact ⟨hasDenominator_ofRat _, value_ofRat _⟩) fun _ => .of_isOverflow

/-- A quotient of decimals takes the sign of the true quotient. It may be zero, where the true
quotient vanishes in the permitted places. -/
theorem quotient_takesSign (a b : Decimal) :
    Meets (a.quotient b) (fun w => TakesSign w.value (a.value / b.value)) IsReal := by
  have hfault : Meets (a.quotient b) (fun _ => True) IsReal := by
    unfold Decimal.quotient
    split
    · split
      · exact .of_isOverflow rfl
      · exact isReal_divisionByZero
    · exact (Decimal.fit_meets _).mono (fun _ _ => trivial) fun _ => .of_isOverflow
  exact hfault.eq_and.imp fun w hw => value_quotient hw.1 ▸ kept_takesSign _

/-- A number as a decimal takes the sign of the number. -/
theorem toDecimal_takesSign (x : Number) :
    Meets x.toDecimal (fun w => TakesSign w.value x.value) IsReal := by
  cases x with
  | ratio n d =>
    have hquotient := quotient_takesSign (.ofInt n) (.ofInt d)
    rwa [Decimal.value_ofInt, Decimal.value_ofInt] at hquotient
  | decimal v a => exact .refl _

/-- The inverse of a number takes its sign. -/
theorem reciprocal_takesSign {x : Number} (hx : x.isZero = false) :
    Meets x.reciprocal (fun y => y.HasDenominator ∧ TakesSign y.value x.value⁻¹) IsReal := by
  rw [reciprocal, div, hx, if_neg (by simp)]
  cases x with
  | ratio n d =>
    have hn : n ≠ 0 := by simpa [isZero] using hx
    refine (simplify_value (1 * d) (d := 1 * n) (by omega)).imp fun y hy => ⟨hy.1, ?_⟩
    rw [hy.2, value, inv_div, one_mul, one_mul]
    exact .refl _
  | decimal v a =>
    refine (toDecimal_takesSign one).eq_and.bind fun w hw => ?_
    refine (quotient_takesSign w v).bind fun u hu => ⟨trivial, hu.trans ?_⟩
    have hone := hw.2.mul_right v.value⁻¹
    rwa [value_one, one_mul, ← div_eq_mul_inv] at hone

/-- A natural power takes the sign of the true power. -/
theorem powNat_takesSign {x : Number} (hx : x.HasDenominator) {n : ℕ} (hn : n ≠ 0) :
    Meets (x.powNat n) (fun z => TakesSign z.value (x.value ^ n)) IsReal := by
  cases x with
  | ratio p q =>
    rw [powNat]
    split
    · exact .of_isOverflow rfl
    · rw [intPow_eq p hn, intPow_eq q hn]
      refine (simplify_value (p ^ n) (pow_ne_zero n hx)).imp fun z hz => ?_
      rw [hz.2, value, div_pow, Int.cast_pow, Int.cast_pow]
      exact .refl _
  | decimal v a =>
    refine ((Decimal.power_inRange v _).mono (fun _ h => h) fun _ => .of_isOverflow).eq_and.bind
      fun w hw => ?_
    have hsign := Decimal.power_takesSign (Decimal.whole?_ofNat n) hw.1
    rwa [zpow_natCast] at hsign

/-- A whole power takes the sign of the true power. -/
theorem powInt_takesSign {x : Number} (hx : x.HasDenominator) (m : ℤ) :
    Meets (x.powInt m) (fun z => TakesSign z.value (x.value ^ m)) IsReal := by
  unfold powInt
  split
  · split
    · exact isReal_divisionByZero
    · next hneg hzero =>
      -- a negative exponent is the power of the reciprocal
      obtain ⟨n, rfl⟩ : ∃ n : ℕ, m = -(n : ℤ) := ⟨m.natAbs, by omega⟩
      have hn : n ≠ 0 := by omega
      refine (reciprocal_takesSign (Bool.not_eq_true _ ▸ hzero)).bind fun y hy => ?_
      rw [Int.natAbs_neg, Int.natAbs_natCast, zpow_neg, zpow_natCast, ← inv_pow]
      exact (powNat_takesSign hy.1 hn).imp fun z hz => hz.trans (hy.2.pow hn)
  · split
    · next hzero =>
      rw [hzero, zpow_zero]
      cases x with
      | ratio n d =>
        rw [meets_ok, value_one]
        exact .refl 1
      | decimal v a =>
        rw [meets_ok, value, Decimal.value_one]
        exact .refl 1
    · next hneg hzero =>
      obtain ⟨n, rfl⟩ : ∃ n : ℕ, m = n := ⟨m.toNat, by omega⟩
      rw [zpow_natCast, Int.toNat_natCast]
      exact powNat_takesSign hx (by omega)

/-! ## Whole exponents -/

/-- A whole value is found to be one, unless it is a decimal beyond the words. -/
theorem whole?_of_word {e : Number} (he : e.HasDenominator) {m : ℤ} (hm : e.value = m)
    (hword : e.IsDecimal → isWord m = true) : e.whole? = .ok (some m) := by
  cases e with
  | ratio n d =>
    have hd : d ≠ 0 := he
    have hn : n = m * d := by
      rw [value, div_eq_iff (Int.cast_ne_zero.mpr hd)] at hm
      exact_mod_cast hm
    rw [whole?, if_neg hd, hn, Int.mul_emod_left, Int.mul_ediv_cancel m hd, if_pos rfl]
  | decimal v a => simp [whole?, Decimal.whole?_eq_some_iff.mpr hm, hword ⟨v, a, rfl⟩]

/-- Beyond the words a whole exponent is treated as any other one, and a negative base is refused. -/
theorem pow_of_not_word {x : Number} (hx : x.HasDenominator) {v : Decimal} (a : Accuracy) {m : ℤ}
    (hm : v.value = m) (hword : isWord m = false) :
    if x.value < 0 then x.pow (.decimal v a) = failMaths .imaginary
    else Meets (x.pow (.decimal v a)) (fun z => TakesSign z.value (x.value ^ m)) IsReal := by
  have hwhole : v.whole? = some m := Decimal.whole?_eq_some_iff.mpr hm
  have hpow : x.pow (.decimal v a) = if x.isNegative then failMaths .imaginary
      else do return .decimal (← approximatePower (← x.toDecimal) v) .approximate := by
    rw [pow, whole?, hwhole]
    simp [hword, simplify]
  rw [hpow]
  by_cases hneg : x.value < 0
  · rw [if_pos hneg, if_pos ((isNegative_iff hx).mpr hneg)]
  rw [if_neg hneg, if_neg fun h => hneg ((isNegative_iff hx).mp h)]
  refine (toDecimal_takesSign x).bind fun w hw => ?_
  unfold approximatePower
  by_cases hzero : w.digits = 0
  · rw [if_pos hzero]
    split
    · exact isReal_divisionByZero
    · exact .inl (Decimal.value_eq_zero rfl)
  · rw [if_neg hzero]
    have hw0 : w.value ≠ 0 := fun h => hzero (beq_iff_eq.mp ((Decimal.isZero_iff w).mpr h))
    exact ((Decimal.power_inRange w v).mono (fun _ h => h) fun _ => .of_isOverflow).eq_and.bind
      fun u hu => (Decimal.power_takesSign hwhole hu.1).trans (hw.zpow hw0 m)

/-- A power with a whole exponent is imaginary exactly if the base is negative and the exponent is a
decimal beyond the words. Whenever there is a power, it has the sign of the integer power or is zero,
so that it is negative only for an odd exponent of a negative base. -/
theorem pow_whole {x e : Number} (hx : x.HasDenominator) (he : e.HasDenominator) {m : ℤ}
    (hm : e.value = m) :
    (x.pow e = failMaths .imaginary ↔ x.value < 0 ∧ e.IsDecimal ∧ isWord m = false) ∧
    ∀ z, x.pow e = .ok z →
      TakesSign z.value (x.value ^ m) ∧ (z.value < 0 → x.value < 0 ∧ Odd m) := by
  -- only an odd power of something negative is negative
  have hparity : ∀ z : Number, TakesSign z.value (x.value ^ m) → z.value < 0 →
      x.value < 0 ∧ Odd m := by
    intro z hz hneg
    have hpow := hz.neg_of_neg hneg
    refine ⟨not_le.mp fun hx => absurd hpow (not_lt.mpr (zpow_nonneg hx m)), ?_⟩
    exact Int.not_even_iff_odd.mp fun heven => absurd hpow (not_lt.mpr (heven.zpow_nonneg _))
  -- unless an exponent beyond the words makes it imaginary, the power is a real one
  have hreal : ¬(x.value < 0 ∧ e.IsDecimal ∧ isWord m = false) →
      Meets (x.pow e) (fun z => TakesSign z.value (x.value ^ m)) IsReal := by
    intro h
    by_cases hbig : e.IsDecimal ∧ isWord m = false
    · obtain ⟨⟨v, a, rfl⟩, hword⟩ := hbig
      have hpow := pow_of_not_word hx a hm hword
      rwa [if_neg fun hneg => h ⟨hneg, ⟨v, a, rfl⟩, hword⟩] at hpow
    · have hword : e.IsDecimal → isWord m = true := fun hdecimal =>
        by_contra fun hword => hbig ⟨hdecimal, Bool.not_eq_true _ ▸ hword⟩
      rw [pow, whole?_of_word he hm hword, ok_bind]
      exact powInt_takesSign hx m
  by_cases h : x.value < 0 ∧ e.IsDecimal ∧ isWord m = false
  · obtain ⟨hneg, ⟨v, a, rfl⟩, hword⟩ := h
    have hpow := pow_of_not_word hx a hm hword
    rw [if_pos hneg] at hpow
    rw [hpow]
    exact ⟨iff_of_true rfl ⟨hneg, ⟨v, a, rfl⟩, hword⟩, fun z hz => by cases hz⟩
  · refine ⟨iff_of_false (fun himaginary => (hreal h).of_error himaginary rfl) h, fun z hz => ?_⟩
    have hsign := (hreal h).of_ok hz
    exact ⟨hsign, hparity z hsign⟩

/-- A half to the third, negative, the exponent being written with a place. -/
theorem pow_whole_three :
    HasDenominator (.ratio (-1) 2) ∧ HasDenominator (.decimal ⟨false, 30, -1⟩ .exact) ∧
    (decimal ⟨false, 30, -1⟩ .exact).value = (3 : ℤ) ∧
    (ratio (-1) 2).pow (.decimal ⟨false, 30, -1⟩ .exact) = .ok (.ratio (-1) 8) ∧
    (ratio (-1) 8).value < 0 ∧ (ratio (-1) 2).value < 0 ∧ Odd (3 : ℤ) := by
  have hx : HasDenominator (.ratio (-1) 2) := two_ne_zero
  have he : HasDenominator (.decimal ⟨false, 30, -1⟩ .exact) := trivial
  have hm : (decimal ⟨false, 30, -1⟩ .exact).value = (3 : ℤ) := by
    norm_num [value, Decimal.value_eq]
  have hpow : (ratio (-1) 2).pow (.decimal ⟨false, 30, -1⟩ .exact) = .ok (.ratio (-1) 8) := by
    decide +kernel
  have hneg : (ratio (-1) 8).value < 0 := by norm_num [value]
  exact ⟨hx, he, hm, hpow, hneg, ((pow_whole hx he hm).2 _ hpow).2 hneg⟩

/-- Minus one to the power of ten to the nineteenth is one, and imaginary is what it is called. -/
theorem pow_ten_nineteen_imaginary :
    HasDenominator (.ratio (-1) 1) ∧
    (decimal ⟨false, 10 ^ 19, 0⟩ .exact).value = (10 ^ 19 : ℤ) ∧
    (ratio (-1) 1).value ^ (10 ^ 19 : ℤ) = 1 ∧
    (ratio (-1) 1).pow (.decimal ⟨false, 10 ^ 19, 0⟩ .exact) = failMaths .imaginary := by
  refine ⟨one_ne_zero, by norm_num [value, Decimal.value_eq], ?_, by decide +kernel⟩
  have heven : Even (10 ^ 19 : ℤ) := (show Even (10 : ℤ) by decide).pow_of_ne_zero (by decide)
  rw [value, Int.cast_neg, Int.cast_one, div_one, heven.neg_one_zpow]

end Number

end Mathpad
