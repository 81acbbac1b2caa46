import Mathlib.Algebra.Order.Field.Power
import Mathlib.Algebra.Order.Ring.Abs
import Mathlib.Data.Nat.Cast.Field
import Mathlib.Data.Nat.Cast.Order.Field
import Mathlib.Tactic.GCongr
import Mathlib.Tactic.Linarith
import Mathlib.Tactic.Positivity
import Mathpad.Proofs.Fractions
import Mathpad.Proofs.LinearOrder
import Mathpad.Proofs.NodeValues
import Mathpad.Proofs.Rounding

/-!
# How near a decimal is to the fraction that it stands for

A fraction is compared by the decimal that it is rounded to, and both the digits and the places of
that decimal are limited. So fractions that compare equal need not be equal, but they are near each
other. Fractions that are further apart than this are told apart.
-/
set_option autoImplicit false

namespace Mathpad

namespace Decimal

/-! ## Values -/

theorem abs_sign (negative : Bool) : |(if negative then -1 else 1 : ℚ)| = 1 := by
  cases negative <;> simp

theorem abs_value (d : Decimal) : |d.value| = d.digits * 10 ^ d.exponent := by
  rw [value_eq, mul_assoc, abs_mul, abs_sign, one_mul, abs_of_nonneg (by positivity)]

/-- A decimal is zero if and only if its value is. -/
theorem isZero_iff (v : Decimal) : v.isZero = true ↔ v.value = 0 := by
  have hpow : (10 : ℚ) ^ v.exponent ≠ 0 := by positivity
  rw [← abs_eq_zero, abs_value, mul_eq_zero, or_iff_left hpow, Nat.cast_eq_zero, isZero, beq_iff_eq]

/-- Decimals of one sign are as far apart as their magnitudes. -/
theorem abs_value_sub (sign : Bool) (m n : Nat) (e k : Int) :
    |(⟨sign, m, e⟩ : Decimal).value - (⟨sign, n, k⟩ : Decimal).value|
      = |(m : ℚ) * 10 ^ e - n * 10 ^ k| := by
  rw [value_eq, value_eq, mul_assoc, mul_assoc, ← mul_sub, abs_mul, abs_sign, one_mul]

/-- Measured in units small enough, a decimal is a whole number of them. -/
theorem value_eq_units {d : Decimal} {e : Int} (h : e ≤ d.exponent) :
    d.value = d.units e * 10 ^ e := by
  obtain ⟨k, hk⟩ : ∃ k : Nat, d.exponent = k + e := ⟨(d.exponent - e).toNat, by omega⟩
  have hnat : (d.exponent - e).toNat = k := by omega
  rw [value, units, hnat, hk, zpow_add₀ (by norm_num), zpow_natCast]
  push_cast
  ring

/-- Decimals that compare equal have one value. -/
theorem value_eq_of_order {a b : Decimal} (h : a.order b = .eq) : a.value = b.value := by
  rw [value_eq_units (min_le_left a.exponent b.exponent),
    value_eq_units (min_le_right a.exponent b.exponent)]
  have hunits := compare_eq_iff_eq.mp h
  rw [hunits]

/-- Decimals compare as equal if and only if their values are equal. -/
theorem sameValue_iff (a b : Decimal) : a.sameValue b = true ↔ a.value = b.value := by
  rw [value_eq_units (min_le_left a.exponent b.exponent),
    value_eq_units (min_le_right a.exponent b.exponent), mul_left_inj' (by positivity),
    Int.cast_inj, sameValue, order, beq_iff_eq, compare_eq_iff_eq]

/-! ## Rounding -/

/-- A number has a digit for each power of ten that it reaches. -/
theorem pow_digitCount_le {n : Nat} (hn : n ≠ 0) : 10 ^ (digitCount n - 1) ≤ n := by
  by_contra hlt
  have hpos : 1 ≤ digitCount n - 1 := by
    by_contra hone
    have hzero : digitCount n - 1 = 0 := by omega
    rw [hzero] at hlt
    omega
  have hle := digitCount_le hpos (not_le.mp hlt)
  omega

theorem digitCount_pos (n : Nat) : 1 ≤ digitCount n := by
  rw [digitCount]
  split <;> omega

/-- Division to a whole number is off by a half at most. -/
theorem abs_divRound_sub_le (n : Nat) {d : Nat} (hd : 0 < d) :
    |(divRound n d : ℚ) * d - n| ≤ d / 2 := by
  have hsplit : ((d * (n / d) + n % d : Nat) : ℚ) = n := by rw [Nat.div_add_mod]
  have hmod := Nat.mod_lt n hd
  push_cast at hsplit
  rw [← hsplit, abs_le]
  unfold divRound
  by_cases hup : d < 2 * (n % d) ∨ 2 * (n % d) = d ∧ n / d % 2 = 1
  · have hhalf : (d : ℚ) ≤ 2 * (n % d : Nat) := by
      have hle : d ≤ 2 * (n % d) := by omega
      exact_mod_cast hle
    have hmod' : ((n % d : Nat) : ℚ) < d := by exact_mod_cast hmod
    rw [if_pos hup]
    push_cast at hhalf hmod' ⊢
    constructor <;> nlinarith
  · have hhalf : 2 * ((n % d : Nat) : ℚ) ≤ d := by
      have hle : 2 * (n % d) ≤ d := by omega
      exact_mod_cast hle
    have hmod' : (0 : ℚ) ≤ (n % d : Nat) := Nat.cast_nonneg _
    rw [if_neg hup]
    constructor <;> nlinarith

/-- Dropping digits changes a number by at most half of the last place that is kept. -/
theorem abs_dropDigits_sub_le (n k : Nat) :
    |(dropDigits n k : ℚ) * 10 ^ k - n| ≤ 10 ^ k / 2 := by
  unfold dropDigits
  by_cases hfew : digitCount n < k
  · have hlt := lt_pow_digitCount n
    have hpow : 10 ^ digitCount n * 10 ≤ 10 ^ k := by
      rw [← pow_succ]
      exact Nat.pow_le_pow_right (by norm_num) hfew
    have hbound : ((10 * n : Nat) : ℚ) ≤ ((10 ^ k : Nat) : ℚ) := by
      exact_mod_cast (by omega : 10 * n ≤ 10 ^ k)
    push_cast at hbound
    have hn : (0 : ℚ) ≤ n := Nat.cast_nonneg n
    rw [if_pos hfew, Nat.cast_zero, zero_mul, zero_sub, abs_neg, abs_of_nonneg hn]
    linarith
  · have hround := abs_divRound_sub_le n (d := 10 ^ k) (by positivity)
    rw [if_neg hfew]
    push_cast at hround
    exact hround

/-- Rounding to `p` digits moves a decimal by at most half a unit of the last of them. -/
theorem abs_round_sub_le {p : Nat} (hp : 1 ≤ p) (d : Decimal) :
    |(d.round p).value - d.value| ≤ 5 * |d.value| / 10 ^ p := by
  obtain ⟨k, hk⟩ : ∃ k, k = digitCount d.digits - p := ⟨_, rfl⟩
  by_cases hfew : k = 0
  · rw [round_of_digitCount_le (by omega), sub_self, abs_zero]
    positivity
  · have hmoved : |(d.round p).value - d.value|
        = |(dropDigits d.digits k : ℚ) * 10 ^ (d.exponent + k) - d.digits * 10 ^ d.exponent| := by
      rw [← abs_value_sub d.negative]
      unfold round
      simp only [← hk, if_neg hfew]
      by_cases hcarry : dropDigits d.digits k = 10 ^ p
      -- a carry is written with one digit less and the next exponent
      · rw [if_pos hcarry, abs_value_sub d.negative, abs_value_sub d.negative, hcarry]
        obtain ⟨m, rfl⟩ : ∃ m, p = m + 1 := ⟨p - 1, by omega⟩
        congr 2
        rw [Nat.add_sub_cancel, zpow_add₀ (by norm_num) _ 1, zpow_one]
        push_cast
        ring
      · rw [if_neg hcarry]
    have hdrop := abs_dropDigits_sub_le d.digits k
    have hdigits : d.digits ≠ 0 := by
      intro hzero
      rw [hzero, digitCount, if_pos (by norm_num)] at hk
      omega
    -- the digits that are kept are as many as there may be
    have hlarge : (10 : ℚ) ^ k * 10 ^ p ≤ 10 * d.digits := by
      have hle := pow_digitCount_le hdigits
      have hcount : k + p = digitCount d.digits - 1 + 1 := by omega
      have hnat : 10 ^ k * 10 ^ p ≤ 10 * d.digits := by
        rw [← pow_add, hcount, pow_succ]
        omega
      exact_mod_cast hnat
    have hscale : (0 : ℚ) < 10 ^ d.exponent := by positivity
    rw [hmoved, abs_value, zpow_add₀ (by norm_num), zpow_natCast]
    have hfactor : (dropDigits d.digits k : ℚ) * (10 ^ d.exponent * 10 ^ k)
        - d.digits * 10 ^ d.exponent
        = ((dropDigits d.digits k : ℚ) * 10 ^ k - d.digits) * 10 ^ d.exponent := by ring
    rw [hfactor, abs_mul, abs_of_pos hscale, le_div_iff₀ (by positivity)]
    calc |(dropDigits d.digits k : ℚ) * 10 ^ k - d.digits| * 10 ^ d.exponent * 10 ^ p
        ≤ 10 ^ k / 2 * 10 ^ d.exponent * 10 ^ p := by gcongr
      _ = 10 ^ k * 10 ^ p / 2 * 10 ^ d.exponent := by ring
      _ ≤ 10 * d.digits / 2 * 10 ^ d.exponent := by gcongr
      _ = 5 * (d.digits * 10 ^ d.exponent) := by ring

/-- Rounding makes no zero out of anything else. -/
theorem digits_round_ne_zero {p : Nat} (hp : 1 ≤ p) {d : Decimal} (hd : d.digits ≠ 0) :
    (d.round p).digits ≠ 0 := by
  intro hzero
  have hmoved := abs_round_sub_le hp d
  have hvalue : (d.round p).value = 0 := by rw [← abs_eq_zero, abs_value, hzero]; simp
  have hpos : 0 < |d.value| := by
    rw [abs_value]
    exact mul_pos (by exact_mod_cast Nat.pos_of_ne_zero hd) (by positivity)
  have hten : (10 : ℚ) ≤ 10 ^ p := le_self_pow₀ (by norm_num) (by omega)
  rw [hvalue, zero_sub, abs_neg, le_div_iff₀ (by positivity)] at hmoved
  nlinarith

/-! ## Quotients -/

/-- Removing zeros from the end of a number and counting them loses nothing. -/
theorem stripZeros_eq (n k : Nat) : (stripZeros n k).1 * 10 ^ (stripZeros n k).2 = n := by
  induction k generalizing n with
  | zero => simp [stripZeros]
  | succ k ih =>
    rw [stripZeros]
    by_cases hten : n % 10 = 0
    · rw [if_pos hten]
      have hrest := ih (n / 10)
      dsimp only
      rw [pow_succ, ← mul_assoc, hrest]
      omega
    · rw [if_neg hten]
      simp

/-- A marked quotient is within one of the quotient. The mark is a last digit that is neither zero
nor five, so that no digit looks exact or like a half. -/
theorem abs_markInexact_sub_le {n d : Nat} (hd : 0 < d) :
    |(markInexact (n / d) : ℚ) - n / d| ≤ 1 := by
  have hd' : (0 : ℚ) < d := by exact_mod_cast hd
  have hlow : ((n / d : Nat) : ℚ) ≤ n / d := Nat.cast_div_le
  have hhigh : (n : ℚ) / d < (n / d : Nat) + 1 := by
    rw [div_lt_iff₀ hd']
    exact_mod_cast Nat.lt_mul_of_div_lt (Nat.lt_succ_self _) hd
  have hmark : markInexact (n / d) = n / d ∨ markInexact (n / d) = n / d + 1 := by
    unfold markInexact
    split
    · exact Or.inr rfl
    · exact Or.inl rfl
  rw [abs_le]
  rcases hmark with h | h
  · rw [h]
    constructor <;> linarith
  · rw [h]
    push_cast at hlow hhigh ⊢
    constructor <;> linarith

/-- The product of two decimals is exact. -/
theorem value_mul (a b : Decimal) : (a.mul b).value = a.value * b.value := by
  have hsign : (if a.negative != b.negative then -1 else 1 : ℚ) =
      (if a.negative then -1 else 1) * (if b.negative then -1 else 1) := by
    cases a.negative <;> cases b.negative <;> norm_num
  rw [mul, value_eq, value_eq, value_eq, hsign, zpow_add₀ (by norm_num)]
  push_cast
  ring

/-- The quotient of two decimals is that of their coefficients, shifted by the difference of their
exponents. -/
theorem value_div_value (a b : Decimal) :
    a.value / b.value = (if a.negative != b.negative then -1 else 1)
      * (a.digits / b.digits * 10 ^ (a.exponent - b.exponent)) := by
  have hsign : ((if a.negative then -1 else 1) / (if b.negative then -1 else 1) : ℚ)
      = if a.negative != b.negative then -1 else 1 := by
    cases a.negative <;> cases b.negative <;> norm_num
  rw [value_eq, value_eq, mul_div_mul_comm, mul_div_mul_comm, hsign, mul_assoc,
    zpow_sub₀ (by norm_num)]

/-- A shift to one side or the other is a power. -/
theorem pow_toNat_div {b : ℚ} (hb : b ≠ 0) (s : Int) : b ^ s.toNat / b ^ (-s).toNat = b ^ s := by
  rw [← zpow_natCast, ← zpow_natCast, ← zpow_sub₀ hb]
  congr 1
  omega

/-- The digits may be divided after they were shifted by `s` places. -/
theorem value_div_value_shifted (a b : Decimal) (s : Int) :
    a.value / b.value = (if a.negative != b.negative then -1 else 1)
      * (((a.digits * 10 ^ s.toNat : Nat) : ℚ) / (b.digits * 10 ^ (-s).toNat : Nat)
        * 10 ^ (a.exponent - b.exponent - s)) := by
  have hshift : ((a.digits * 10 ^ s.toNat : Nat) : ℚ) / (b.digits * 10 ^ (-s).toNat : Nat)
      = a.digits / b.digits * 10 ^ s := by
    push_cast
    rw [mul_div_mul_comm, pow_toNat_div (by norm_num)]
  have hsplit : (10 : ℚ) ^ (a.exponent - b.exponent)
      = 10 ^ s * 10 ^ (a.exponent - b.exponent - s) := by
    rw [← zpow_add₀ (by norm_num)]
    congr 1
    omega
  rw [value_div_value, hshift, hsplit]
  ring

/-- A shift by as many places that more than `p` digits of the quotient stand before the point. -/
theorem pow_mul_le_shifted {p m n : Nat} (hm : m ≠ 0) {s : Int}
    (hs : s = digitCount n - digitCount m + p + 1) :
    10 ^ p * (n * 10 ^ (-s).toNat) ≤ m * 10 ^ s.toNat := by
  have hlow := pow_digitCount_le hm
  have hhigh := (lt_pow_digitCount n).le
  have hsum : digitCount n + (-s).toNat + p = digitCount m - 1 + s.toNat := by
    have hone := digitCount_pos m
    omega
  calc 10 ^ p * (n * 10 ^ (-s).toNat) ≤ 10 ^ p * (10 ^ digitCount n * 10 ^ (-s).toNat) := by gcongr
    _ = 10 ^ (digitCount m - 1) * 10 ^ s.toNat := by
        rw [← pow_add, ← pow_add, ← pow_add, ← hsum]
        congr 1
        omega
    _ ≤ m * 10 ^ s.toNat := by gcongr

/-- A quotient is rounded from a coefficient with two digits more than asked for: without the zeros
at its end if the division comes out even, and marked as inexact if not. -/
theorem div_shifted (p : Nat) {a : Decimal} (b : Decimal) (ha : a.digits ≠ 0) {s : Int}
    (hs : s = digitCount b.digits - digitCount a.digits + p + 1) :
    a.div p b =
      if (a.digits * 10 ^ s.toNat) % (b.digits * 10 ^ (-s).toNat) = 0 then
        (⟨a.negative != b.negative,
          (stripZeros ((a.digits * 10 ^ s.toNat) / (b.digits * 10 ^ (-s).toNat)) s.toNat).1,
          a.exponent - b.exponent - s +
            (stripZeros ((a.digits * 10 ^ s.toNat) / (b.digits * 10 ^ (-s).toNat)) s.toNat).2⟩
          : Decimal).round p
      else
        (⟨a.negative != b.negative,
          markInexact ((a.digits * 10 ^ s.toNat) / (b.digits * 10 ^ (-s).toNat)),
          a.exponent - b.exponent - s⟩ : Decimal).round p := by
  rw [div, if_neg ha, hs]

/-- A division works on the digits after they were shifted so far that more than `p` of them stand
before the point. What is rounded is the quotient, or marked where the quotient has no end. -/
theorem exists_div_parts (p : Nat) {a b : Decimal} (ha : a.digits ≠ 0) (hb : b.digits ≠ 0) :
    ∃ (n d : Nat) (e : Int), 0 < d ∧ 10 ^ p * d ≤ n ∧
      a.value / b.value = (if a.negative != b.negative then -1 else 1) * ((n : ℚ) / d * 10 ^ e) ∧
      ((n % d = 0 ∧ ∃ x : Decimal, a.div p b = x.round p ∧ x.value = a.value / b.value) ∨
        (n % d ≠ 0 ∧ a.div p b =
          (⟨a.negative != b.negative, markInexact (n / d), e⟩ : Decimal).round p)) := by
  obtain ⟨s, hs⟩ : ∃ s : Int, s = digitCount b.digits - digitCount a.digits + p + 1 := ⟨_, rfl⟩
  have hquotient := value_div_value_shifted a b s
  have hlarge := pow_mul_le_shifted ha hs
  have hdiv := div_shifted p b ha hs
  have hdpos : 0 < b.digits * 10 ^ (-s).toNat :=
    Nat.mul_pos (Nat.pos_of_ne_zero hb) (by positivity)
  -- how far the digits were shifted does not matter from here on
  generalize a.digits * 10 ^ s.toNat = n at *
  generalize b.digits * 10 ^ (-s).toNat = d at *
  refine ⟨n, d, a.exponent - b.exponent - s, hdpos, hlarge, hquotient, ?_⟩
  by_cases hexact : n % d = 0
  · refine .inl ⟨hexact, _, by rw [hdiv, if_pos hexact], ?_⟩
    -- a quotient that comes out loses zeros, and keeps its value
    have hstrip := stripZeros_eq (n / d) s.toNat
    generalize stripZeros (n / d) s.toNat = r at *
    have hwhole : (n : ℚ) / d = r.1 * 10 ^ r.2 := by
      rw [← Nat.cast_div (Nat.dvd_of_mod_eq_zero hexact) (by positivity), ← hstrip]
      push_cast
      rfl
    rw [value_eq, hquotient, hwhole, zpow_add₀ (by norm_num), zpow_natCast]
    ring
  · exact .inr ⟨hexact, by rw [hdiv, if_neg hexact]⟩

/-- What is rounded in a division is the quotient, or near it where it has no end. -/
theorem exists_div_eq_round (p : Nat) {a b : Decimal} (ha : a.digits ≠ 0) (hb : b.digits ≠ 0) :
    ∃ x : Decimal, a.div p b = x.round p ∧
      |x.value - a.value / b.value| ≤ |a.value / b.value| / 10 ^ p := by
  obtain ⟨n, d, e, hdpos, hlarge, hquotient, ⟨-, x, hdiv, hx⟩ | ⟨-, hdiv⟩⟩ :=
    exists_div_parts p ha hb
  · refine ⟨x, hdiv, ?_⟩
    rw [hx, sub_self, abs_zero]
    positivity
  · refine ⟨_, hdiv, ?_⟩
    have hscale : (0 : ℚ) < 10 ^ e := by positivity
    have hmark := abs_markInexact_sub_le (n := n) hdpos
    have hmany : (10 : ℚ) ^ p ≤ n / d := by
      rw [le_div_iff₀ (by exact_mod_cast hdpos)]
      exact_mod_cast hlarge
    have hpos : (0 : ℚ) < n / d := lt_of_lt_of_le (by positivity) hmany
    rw [value_eq, hquotient, mul_assoc, ← mul_sub, ← sub_mul, abs_mul, abs_sign, one_mul, abs_mul, abs_mul,
      abs_sign, one_mul, abs_of_pos (mul_pos hpos hscale), abs_of_pos hscale,
      le_div_iff₀ (by positivity)]
    calc |(markInexact (n / d) : ℚ) - n / d| * 10 ^ e * 10 ^ p ≤ 1 * 10 ^ e * (n / d) := by gcongr
      _ = n / d * 10 ^ e := by ring

/-- A quotient to `p` digits is off by a few units of the last of them. -/
theorem abs_div_sub_le {p : Nat} (hp : 1 ≤ p) (a : Decimal) {b : Decimal} (hb : b.digits ≠ 0) :
    |(a.div p b).value - a.value / b.value| ≤ 7 * |a.value / b.value| / 10 ^ p := by
  by_cases ha : a.digits = 0
  · have hdiv : (a.div p b).value = 0 := by
      rw [div, if_pos ha, value_eq]
      simp
    have hzero : a.value / b.value = 0 := by
      rw [value_div_value, ha]
      simp
    rw [hdiv, hzero]
    simp
  · obtain ⟨x, hdiv, hx⟩ := exists_div_eq_round p ha hb
    have hround := abs_round_sub_le hp x
    rw [hdiv]
    generalize a.value / b.value = q at *
    have hten : (10 : ℚ) ≤ 10 ^ p := le_self_pow₀ (by norm_num) (by omega)
    have hq : (0 : ℚ) ≤ |q| := abs_nonneg q
    -- the error of rounding is one of the decimal that is rounded, which is near the quotient
    have hsize : |x.value| ≤ 6 / 5 * |q| := by
      have htri : |x.value| ≤ |x.value - q| + |q| := by
        have h := abs_add_le (x.value - q) q
        rwa [sub_add_cancel] at h
      have hsmall : |q| / 10 ^ p ≤ |q| / 10 := by gcongr
      linarith
    have htri : |(x.round p).value - q| ≤ |(x.round p).value - x.value| + |x.value - q| :=
      abs_sub_le _ _ _
    calc |(x.round p).value - q| ≤ 5 * (6 / 5 * |q|) / 10 ^ p + |q| / 10 ^ p := by
          refine htri.trans (add_le_add (hround.trans ?_) hx)
          gcongr
      _ = 7 * |q| / 10 ^ p := by ring

/-! ## Fitting -/

/-- Taking away places moves a decimal by at most half a unit of the last one that there may be. -/
theorem abs_placed_sub_le (d : Decimal) :
    |d.placed.value - d.value| ≤ 1 / (2 * 10 ^ maxPlaces) := by
  unfold placed
  by_cases hlong : d.exponent < -(maxPlaces : Int)
  · obtain ⟨k, hk⟩ : ∃ k : Nat, -(maxPlaces : Int) = d.exponent + k :=
      ⟨(-(maxPlaces : Int) - d.exponent).toNat, by omega⟩
    have hshift : ¬0 ≤ d.exponent + maxPlaces := by omega
    have hnat : (-(d.exponent + maxPlaces)).toNat = k := by omega
    have hdrop := abs_dropDigits_sub_le d.digits k
    have hscale : (0 : ℚ) < 10 ^ d.exponent := by positivity
    have hunit : (10 : ℚ) ^ d.exponent * 10 ^ k = 1 / 10 ^ maxPlaces := by
      rw [← zpow_natCast, ← zpow_add₀ (by norm_num), ← hk, zpow_neg, zpow_natCast, one_div]
    -- as many digits are dropped as there are places too many
    have hmoved : |(d.atPlaces maxPlaces).value - d.value|
        = |(dropDigits d.digits k : ℚ) * 10 ^ k - d.digits| * 10 ^ d.exponent := by
      have hvalues := abs_value_sub d.negative (dropDigits d.digits k) d.digits
        (d.exponent + k) d.exponent
      rw [atPlaces]
      simp only [if_neg hshift, hnat, hk]
      rw [hvalues, zpow_add₀ (by norm_num), zpow_natCast, ← abs_of_pos hscale, ← abs_mul,
        abs_of_pos hscale]
      congr 1
      ring
    rw [if_pos hlong, hmoved]
    calc |(dropDigits d.digits k : ℚ) * 10 ^ k - d.digits| * 10 ^ d.exponent
        ≤ 10 ^ k / 2 * 10 ^ d.exponent := by gcongr
      _ = 10 ^ d.exponent * 10 ^ k / 2 := by ring
      _ = 1 / (2 * 10 ^ maxPlaces) := by rw [hunit, div_div, mul_comm]
  · rw [if_neg hlong, sub_self, abs_zero]
    positivity

/-- Fitting moves a decimal as far as taking away places does. -/
theorem abs_fit_sub_le {d v : Decimal} (h : d.fit = .ok v) :
    |v.value - d.value| ≤ 1 / (2 * 10 ^ maxPlaces) := by
  obtain ⟨rfl, -⟩ := fit_eq_ok h
  exact abs_placed_sub_le d

/-- Decimals compare as their values do. -/
theorem lt_iff_value_lt (a b : Decimal) : a.lt b = true ↔ a.value < b.value := by
  have hscale : (0 : ℚ) < 10 ^ min a.exponent b.exponent := by positivity
  rw [value_eq_units (min_le_left a.exponent b.exponent),
    value_eq_units (min_le_right a.exponent b.exponent), mul_lt_mul_iff_left₀ hscale, Int.cast_lt,
    lt, order, beq_iff_eq, compare_lt_iff_lt]

/-- A decimal fits if neither its digits nor its size forbid it. -/
theorem fit_of_abs_value_le {d : Decimal} (hcount : digitCount d.digits ≤ precision)
    (hsize : |d.placed.value| ≤ maxMagnitude) : d.fit = .ok d.placed := by
  have hplaced := digitCount_placed_le hcount
  have hmagnitude : (d.placed.magnitude precision).value = |d.placed.value| := by
    rw [magnitude_of_digitCount_le hplaced, abs_value, value_eq]
    simp
  have hsmall : ¬(ofNat maxMagnitude).lt (d.placed.magnitude precision) = true := by
    rw [lt_iff_value_lt, hmagnitude, not_lt]
    have hmax : (ofNat maxMagnitude).value = maxMagnitude := by
      rw [ofNat, value_eq]
      simp
    rw [hmax]
    exact hsize
  rw [fit, fit?_of_digitCount_le hcount, if_neg hsmall]

theorem value_ofNat (n : ℕ) : (ofNat n).value = n := by
  rw [ofNat, value_eq]
  simp

theorem ofNat_eq_ofInt (n : ℕ) : ofNat n = ofInt n := by
  simp [ofNat, ofInt]

/-- Taking away places makes nothing too large that is not nearly so. -/
theorem fit_of_abs_le {d : Decimal} (hcount : digitCount d.digits ≤ precision)
    (hsize : |d.value| ≤ 10 ^ 28) : d.fit = .ok d.placed := by
  have hplaced := abs_placed_sub_le d
  have hmax : (10 : ℚ) ^ 28 + 1 ≤ maxMagnitude := by
    exact_mod_cast (show 10 ^ 28 + 1 ≤ maxMagnitude by decide)
  have hone : (1 : ℚ) / (2 * 10 ^ maxPlaces) ≤ 1 := by norm_num [maxPlaces]
  have htri := abs_sub_abs_le_abs_sub d.placed.value d.value
  exact fit_of_abs_value_le hcount (by linarith)

theorem value_ofInt (n : Int) : (ofInt n).value = n := by
  have hexp : (ofInt n).exponent = 0 := rfl
  rw [value, signedDigits_ofInt, hexp, zpow_zero, mul_one]

end Decimal

namespace Number

theorem value_ofRat (q : ℚ) : (ofRat q).value = q := Rat.num_div_den q

/-- A quotient of words is below ten to the twentieth. -/
theorem abs_div_le_of_isWord {n d : Int} (hn : isWord n = true) (hd : d ≠ 0) :
    |(n / d : ℚ)| ≤ 10 ^ 20 := by
  have hnum : |(n : ℚ)| ≤ 10 ^ 20 := by
    have hlt := natAbs_lt_of_isWord hn
    rw [← Int.cast_abs, Int.abs_eq_natAbs, Int.cast_natCast]
    exact_mod_cast hlt.le
  have hone : (1 : ℚ) ≤ |(d : ℚ)| := by exact_mod_cast Int.one_le_abs hd
  calc |(n / d : ℚ)| = |(n : ℚ)| / |(d : ℚ)| := abs_div ..
    _ ≤ |(n : ℚ)| := div_le_self (abs_nonneg _) hone
    _ ≤ 10 ^ 20 := hnum

theorem Fits.abs_le {q : ℚ} (hq : Fits q) : |q| ≤ 10 ^ 20 := by
  have habs := abs_div_le_of_isWord hq.1 (ofRat_den_ne_zero q)
  rwa [Int.cast_natCast, Rat.num_div_den] at habs

/-- The least fraction above zero is the reciprocal of a word. -/
theorem Fits.one_div_le_abs {q : ℚ} (hq : Fits q) (h : q ≠ 0) : 1 / 10 ^ 20 ≤ |q| := by
  have hden : (q.den : ℚ) ≤ 10 ^ 20 := by
    have hlt := natAbs_lt_of_isWord hq.2
    rw [Int.natAbs_natCast] at hlt
    exact_mod_cast hlt.le
  have hnum : (1 : ℚ) ≤ |(q.num : ℚ)| := by
    exact_mod_cast Int.one_le_abs (Rat.num_ne_zero.mpr h)
  have hpos : (0 : ℚ) < q.den := by exact_mod_cast q.den_pos
  have hq : |q| = |(q.num : ℚ)| / q.den := by
    conv_lhs => rw [← Rat.num_div_den q, abs_div, Nat.abs_cast]
  rw [hq]
  gcongr

/-! ## Comparing -/

/-- How far a fraction may be from the decimal that it is compared by. -/
def slack (q : ℚ) : ℚ := (14 * |q| + 1) / (2 * 10 ^ 28)

/-- Dividing the parts of a fraction to 28 digits, and keeping at most 28 places of the quotient,
moves it by less than the slack. -/
theorem abs_toDecimal_sub_le {q : ℚ} {v : Decimal} (h : (ofRat q).toDecimal = .ok v) :
    |v.value - q| ≤ slack q := by
  have hden : (Decimal.ofInt q.den).digits ≠ 0 := by
    change (q.den : Int).natAbs ≠ 0
    have hnz := q.den_nz
    omega
  change (Decimal.ofInt q.num).quotient (Decimal.ofInt q.den) = .ok v at h
  rw [Decimal.quotient, if_neg hden] at h
  have hdiv := Decimal.abs_div_sub_le (p := precision) (by decide) (Decimal.ofInt q.num) hden
  have hfit := Decimal.abs_fit_sub_le h
  rw [Decimal.value_ofInt, Decimal.value_ofInt, Int.cast_natCast, Rat.num_div_den] at hdiv
  have hprecision : precision = 28 := rfl
  have hplaces : maxPlaces = 28 := rfl
  rw [hprecision] at hdiv hfit
  rw [hplaces] at hfit
  calc |v.value - q| ≤ |v.value - _| + |_ - q| := abs_sub_le _ _ _
    _ ≤ 1 / (2 * 10 ^ 28) + 7 * |q| / 10 ^ 28 := add_le_add hfit hdiv
    _ = slack q := by
      unfold slack
      ring

/-- Fractions that compare equal are near each other. -/
theorem near_of_order {p q : ℚ} (h : (ofRat p).order (ofRat q) = .ok .eq) :
    |p - q| ≤ slack p + slack q := by
  unfold order at h
  obtain ⟨v, hv, h⟩ := Outcome.bind_eq_ok.mp h
  obtain ⟨w, hw, h⟩ := Outcome.bind_eq_ok.mp h
  have hvw := Decimal.value_eq_of_order (Except.ok.inj h)
  have hp := abs_toDecimal_sub_le hv
  have hq := abs_toDecimal_sub_le hw
  rw [hvw, abs_sub_comm] at hp
  exact (abs_sub_le p w.value q).trans (add_le_add hp hq)

end Number

/-! ## Fractions that are told apart -/

/-- Comparison tells different fractions in `C` apart. -/
def ToldApart (C : ℚ → Prop) : Prop :=
  ∀ p q, C p → C q → (Number.ofRat p).order (Number.ofRat q) = .ok .eq → p = q

/-- Fractions that are further from each other than their slack allows are told apart. -/
theorem toldApart_of_far {C : ℚ → Prop}
    (h : ∀ p q, C p → C q → p ≠ q → Number.slack p + Number.slack q < |p - q|) : ToldApart C := by
  intro p q hp hq horder
  by_contra hne
  exact absurd (Number.near_of_order horder) (not_le.mpr (h p q hp hq hne))

/-! ### Roots and whole numbers -/

/-- An exponent that is not split any further. -/
def IsUnsplit (q : ℚ) : Prop := q.num = 1 ∨ q.den = 1

/-- Up to this degree no two roots have exponents that compare equal. -/
def maxDegree : Nat := 10 ^ 13

/-- A whole number, or the exponent of a root of moderate degree. -/
def RootExponent (q : ℚ) : Prop := Number.Fits q ∧ IsUnsplit q ∧ q.den ≤ maxDegree

/-- An exponent of a root is a whole number or the inverse of a degree; either is compared with
little slack. -/
theorem RootExponent.cases {q : ℚ} (h : RootExponent q) :
    (∃ n : ℤ, q = n ∧ Number.slack q ≤ 1 / 10) ∨
      ∃ d : ℕ, 2 ≤ d ∧ d ≤ maxDegree ∧ q = 1 / d ∧ Number.slack q ≤ 1 / 10 ^ 27 := by
  obtain ⟨hfits, hunsplit, hden⟩ := h
  by_cases hone : q.den = 1
  · have hwhole : q = q.num := (Rat.coe_int_num_of_den_eq_one hone).symm
    have hsize : (q.num.natAbs : ℚ) ≤ 10 ^ 20 := by
      exact_mod_cast (Number.natAbs_lt_of_isWord hfits.1).le
    refine Or.inl ⟨q.num, hwhole, ?_⟩
    rw [hwhole, Number.slack, ← Int.cast_abs, ← Nat.cast_natAbs]
    rw [div_le_div_iff₀ (by norm_num) (by norm_num)]
    linarith
  · have hroot : q = 1 / q.den := by
      conv_lhs => rw [← Rat.num_div_den q, hunsplit.resolve_right hone, Int.cast_one]
    have htwo : 2 ≤ q.den := by
      have hpos := q.den_pos
      omega
    have htwo' : (2 : ℚ) ≤ q.den := by exact_mod_cast htwo
    refine Or.inr ⟨q.den, htwo, hden, hroot, ?_⟩
    have hle : |q| ≤ 1 := by
      rw [hroot, abs_of_pos (by positivity), div_le_one (by positivity)]
      linarith
    rw [Number.slack, div_le_div_iff₀ (by norm_num) (by norm_num)]
    linarith

/-- A degree of a root that is told apart has at most 14 digits. -/
theorem le_of_le_maxDegree {d : ℕ} (h : d ≤ maxDegree) : (d : ℚ) ≤ 10 ^ 13 := by
  have hcast : (d : ℚ) ≤ maxDegree := by exact_mod_cast h
  rwa [maxDegree, Nat.cast_pow, Nat.cast_ofNat] at hcast

/-- Whole numbers and the exponents of roots of moderate degree are told apart. -/
theorem toldApart_rootExponent : ToldApart RootExponent := by
  -- a whole number and the exponent of a root
  have hmixed : ∀ (n : ℤ) {d : ℕ}, 2 ≤ d → d ≤ maxDegree → Number.slack n ≤ 1 / 10 →
      Number.slack (1 / d) ≤ 1 / 10 ^ 27 →
      Number.slack n + Number.slack (1 / d) < |(n : ℚ) - 1 / d| := by
    intro n d htwo hd hn hroot
    have htwo' : (2 : ℚ) ≤ d := by exact_mod_cast htwo
    have hd' := le_of_le_maxDegree hd
    have hhalf : (1 : ℚ) / d ≤ 1 / 2 := by gcongr
    have hlow : (1 : ℚ) / 10 ^ 13 ≤ 1 / d := by gcongr
    rcases lt_trichotomy n 0 with hneg | rfl | hpos
    · have hone : (n : ℚ) ≤ -1 := by
        have hint : n ≤ -1 := by omega
        exact_mod_cast hint
      rw [abs_sub_comm, abs_of_pos (by linarith)]
      linarith
    · have hzero : Number.slack 0 = 1 / (2 * 10 ^ 28) := by norm_num [Number.slack]
      rw [Int.cast_zero, hzero, zero_sub, abs_neg, abs_of_pos (by linarith)]
      linarith
    · have hone : (1 : ℚ) ≤ n := by exact_mod_cast hpos
      rw [abs_of_pos (by linarith)]
      linarith
  refine toldApart_of_far fun p q hp hq hne => ?_
  rcases hp.cases with ⟨n, rfl, hn⟩ | ⟨d, htwo, hd, rfl, hdslack⟩
  · rcases hq.cases with ⟨m, rfl, hm⟩ | ⟨d, htwo, hd, rfl, hdslack⟩
    · have hfar : (1 : ℚ) ≤ |(n : ℚ) - m| := by
        have hint : 1 ≤ |n - m| := Int.one_le_abs (sub_ne_zero.mpr fun h => hne (by rw [h]))
        exact_mod_cast hint
      linarith
    · exact hmixed n htwo hd hn hdslack
  · rcases hq.cases with ⟨m, rfl, hm⟩ | ⟨c, hctwo, hc, rfl, hcslack⟩
    · rw [add_comm, abs_sub_comm]
      exact hmixed m htwo hd hm hdslack
    -- two fractions are at least as far apart as their denominators allow
    · have hdpos : (0 : ℚ) < d := by exact_mod_cast (by omega : 0 < d)
      have hcpos : (0 : ℚ) < c := by exact_mod_cast (by omega : 0 < c)
      have hint : 1 ≤ |(c : ℤ) - d| := by
        refine Int.one_le_abs (sub_ne_zero.mpr fun h => hne ?_)
        rw [show c = d by exact_mod_cast h]
      have hnum : (1 : ℚ) ≤ |(c : ℚ) - d| := by exact_mod_cast hint
      have hsmall : (d : ℚ) * c ≤ 10 ^ 13 * 10 ^ 13 := by
        have hd' := le_of_le_maxDegree hd
        have hc' := le_of_le_maxDegree hc
        gcongr
      have hfar : 1 / (10 ^ 13 * 10 ^ 13) ≤ |1 / (d : ℚ) - 1 / c| := by
        rw [div_sub_div _ _ hdpos.ne' hcpos.ne', one_mul, mul_one, abs_div,
          abs_of_pos (mul_pos hdpos hcpos)]
        gcongr
      linarith

/-! ### Powers of one number -/

/-- Products and whole powers of fractions in `C` are in `C`, as far as they fit. -/
structure ClosedUnderPowers (C : ℚ → Prop) : Prop where
  one : C 1
  mul {p q : ℚ} : C p → C q → Number.Fits (p * q) → C (p * q)
  zpow {q : ℚ} (n : ℤ) : C q → Number.Fits (q ^ n) → C (q ^ n)

/-- Zero, or a power of `b` with either sign. -/
def SignedPower (b : Nat) (q : ℚ) : Prop := Number.Fits q ∧ (q = 0 ∨ ∃ k : ℤ, |q| = (b : ℚ) ^ k)

/-- The powers of a number, with either sign, are closed under multiplication and whole powers. -/
theorem signedPower_closed {b : Nat} (hb : b ≠ 0) : ClosedUnderPowers (SignedPower b) where
  one := ⟨Number.fits_one, Or.inr ⟨0, by simp⟩⟩
  mul {p q} hp hq hfits := by
    refine ⟨hfits, ?_⟩
    rcases hp.2 with rfl | ⟨j, hj⟩
    · exact Or.inl (zero_mul q)
    · rcases hq.2 with rfl | ⟨k, hk⟩
      · exact Or.inl (mul_zero p)
      · exact Or.inr ⟨j + k, by rw [abs_mul, hj, hk, zpow_add₀ (by exact_mod_cast hb)]⟩
  zpow {q} n hq hfits := by
    refine ⟨hfits, ?_⟩
    rcases hq.2 with rfl | ⟨k, hk⟩
    · by_cases hn : n = 0
      · exact Or.inr ⟨0, by simp [hn]⟩
      · exact Or.inl (zero_zpow n hn)
    · exact Or.inr ⟨k * n, by rw [abs_zpow, hk, zpow_mul]⟩

/-- The powers of a number above one are told apart: even the smallest ones are further from each
other than their slack. -/
theorem toldApart_signedPower {b : Nat} (hb : 2 ≤ b) : ToldApart (SignedPower b) := by
  have hb' : (2 : ℚ) ≤ b := by exact_mod_cast hb
  -- the one of the greater magnitude is at least half of it away from the other
  have hfar : ∀ {p q : ℚ}, SignedPower b p → SignedPower b q → p ≠ q → |p| ≤ |q| →
      Number.slack p + Number.slack q < |p - q| := by
    intro p q hp hq hne hle
    have hq0 : q ≠ 0 := by
      rintro rfl
      rw [abs_zero, abs_nonpos_iff] at hle
      exact hne hle
    have hsize : (1 : ℚ) / 10 ^ 20 ≤ |q| := by
      have hden : (q.den : ℚ) ≤ 10 ^ 20 := by
        have hlt := Number.natAbs_lt_of_isWord hq.1.2
        rw [Int.natAbs_natCast] at hlt
        exact_mod_cast hlt.le
      have hnum : (1 : ℚ) ≤ |(q.num : ℚ)| := by
        exact_mod_cast Int.one_le_abs (Rat.num_ne_zero.mpr hq0)
      have hpos : (0 : ℚ) < q.den := by exact_mod_cast q.den_pos
      rw [← Rat.num_div_den q, abs_div, abs_of_pos hpos]
      gcongr
    have hhalf : |q| / 2 ≤ |p - q| := by
      rcases hle.eq_or_lt with heq | hlt
      · have hopposite : p = -q := (abs_eq_abs.mp heq).resolve_left hne
        rw [hopposite, show -q - q = -(2 * q) by ring, abs_neg, abs_mul, abs_two]
        linarith [abs_nonneg q]
      · have hsmall : |p| ≤ |q| / 2 := by
          rcases hp.2 with rfl | ⟨j, hj⟩
          · rw [abs_zero]
            positivity
          · obtain ⟨k, hk⟩ := hq.2.resolve_left hq0
            rw [hj, hk] at hlt ⊢
            have hjk : j + 1 ≤ k := (zpow_lt_zpow_iff_right₀ (by linarith)).mp hlt
            have hpow : (b : ℚ) ^ (j + 1) ≤ b ^ k := zpow_le_zpow_right₀ (by linarith) hjk
            rw [zpow_add₀ (by linarith), zpow_one] at hpow
            have hpos : (0 : ℚ) < b ^ j := zpow_pos (by linarith) j
            have hdouble : (b : ℚ) ^ j * 2 ≤ b ^ j * b := by gcongr
            linarith
        have htri := abs_sub_abs_le_abs_sub q p
        rw [abs_sub_comm] at htri
        linarith
    refine lt_of_lt_of_le ?_ hhalf
    rw [Number.slack, Number.slack, ← add_div, div_lt_div_iff₀ (by norm_num) (by norm_num)]
    linarith
  refine toldApart_of_far fun p q hp hq hne => ?_
  rcases le_total |p| |q| with hle | hle
  · exact hfar hp hq hne hle
  · rw [add_comm, abs_sub_comm]
    exact hfar hq hp hne.symm hle

end Mathpad
