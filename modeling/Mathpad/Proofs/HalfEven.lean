import Mathlib.Data.Int.Log
import Mathlib.Data.Rat.Floor
import Mathpad.Proofs.InRange

/-!
# What rounding does to a value

Decimals are rounded digit by digit, and a carry changes how they are written. Their values are
rounded as rational numbers are: to the nearest multiple of a power of ten, and to the even one
where two are equally near. Which power that is depends on the value alone when a number of digits
is to be kept, and on nothing when it is a number of places.
-/
set_option autoImplicit false

namespace Mathpad

/-! ## Rational numbers -/

/-- The integer nearest to `q`. A half goes to the even neighbour. -/
def toEven (q : ℚ) : ℤ :=
  if 1 / 2 < Int.fract q ∨ Int.fract q = 1 / 2 ∧ Odd ⌊q⌋ then ⌊q⌋ + 1 else ⌊q⌋

/-- The multiple of `10 ^ e` nearest to `q`. -/
def toPlace (e : ℤ) (q : ℚ) : ℚ := toEven (q / 10 ^ e) * 10 ^ e

/-- The number with `p` significant digits nearest to `q`. -/
def toDigits (p : ℕ) (q : ℚ) : ℚ := toPlace (Int.log 10 |q| + 1 - p) q

/-- The integer `n` is less than a half away from `q`, or it is even and a half away. -/
def NearestEven (q : ℚ) (n : ℤ) : Prop := |q - n| < 1 / 2 ∨ |q - n| = 1 / 2 ∧ Even n

/-- Rounding to an integer finds the nearest one, and of two the even one. -/
theorem nearestEven_toEven (q : ℚ) : NearestEven q (toEven q) := by
  have hsplit := Int.floor_add_fract q
  have hlow := Int.fract_nonneg q
  have hhigh := Int.fract_lt_one q
  have hfloor : q - ⌊q⌋ = Int.fract q := rfl
  have hceil : q - (⌊q⌋ + 1 : ℤ) = -(1 - Int.fract q) := by
    push_cast
    linarith
  unfold NearestEven toEven
  split
  · next hup =>
    rw [hceil, abs_neg, abs_of_pos (by linarith)]
    rcases hup with h | ⟨h, hodd⟩
    · exact .inl (by linarith)
    · exact .inr ⟨by rw [h]; norm_num, hodd.add_one⟩
  · next hdown =>
    rw [hfloor, abs_of_nonneg hlow]
    rw [not_or, not_lt, not_and] at hdown
    rcases hdown.1.lt_or_eq with h | h
    · exact .inl h
    · exact .inr ⟨h, Int.not_odd_iff_even.mp (hdown.2 h)⟩

/-- Only one integer is nearest. -/
theorem NearestEven.unique {q : ℚ} {m n : ℤ} (hm : NearestEven q m) (hn : NearestEven q n) :
    m = n := by
  by_contra hne
  have hfar : (1 : ℚ) ≤ |(m : ℚ) - n| := by
    exact_mod_cast Int.one_le_abs (sub_ne_zero.mpr hne)
  have htri : |(m : ℚ) - n| ≤ |q - m| + |q - n| := by
    rw [abs_sub_comm q m]
    exact abs_sub_le _ _ _
  rcases hm with hm | ⟨hm, hmeven⟩ <;> rcases hn with hn | ⟨hn, hneven⟩
  · linarith
  · linarith
  · linarith
  -- two even integers are further apart
  · have hone : |m - n| = 1 := by
      have hle : |(m : ℚ) - n| ≤ 1 := by linarith
      exact_mod_cast le_antisymm hle hfar
    have heven : Even (m - n) := hmeven.sub hneven
    rw [← even_abs, hone] at heven
    exact absurd heven (by decide)

theorem toEven_eq {q : ℚ} {n : ℤ} (h : NearestEven q n) : toEven q = n :=
  (nearestEven_toEven q).unique h

theorem toEven_intCast (n : ℤ) : toEven n = n :=
  toEven_eq (.inl (by rw [sub_self, abs_zero]; norm_num))

/-- Rounding to an integer looks at the magnitude only: a half goes to the same magnitude on either
side of zero. -/
theorem toEven_neg (q : ℚ) : toEven (-q) = -toEven q := by
  refine toEven_eq ?_
  have hnear := nearestEven_toEven q
  unfold NearestEven at hnear ⊢
  rwa [Int.cast_neg, neg_sub_neg, abs_sub_comm, even_neg]

theorem toEven_nonneg {q : ℚ} (hq : 0 ≤ q) : 0 ≤ toEven q := by
  have hfloor := Int.floor_nonneg.mpr hq
  unfold toEven
  split <;> omega

theorem toPlace_nonneg (e : ℤ) {q : ℚ} (hq : 0 ≤ q) : 0 ≤ toPlace e q := by
  have hdiv : 0 ≤ q / 10 ^ e := by positivity
  have heven : (0 : ℚ) ≤ toEven (q / 10 ^ e) := by exact_mod_cast toEven_nonneg hdiv
  unfold toPlace
  positivity

theorem toPlace_neg (e : ℤ) (q : ℚ) : toPlace e (-q) = -toPlace e q := by
  unfold toPlace
  rw [neg_div, toEven_neg, Int.cast_neg, neg_mul]

/-- Rounding does not see the sign. -/
theorem toDigits_neg (p : ℕ) (q : ℚ) : toDigits p (-q) = -toDigits p q := by
  unfold toDigits
  rw [abs_neg, toPlace_neg]

/-- Multiples of a larger power of ten are left alone. -/
theorem toPlace_of_le {e k : ℤ} (h : e ≤ k) (m : ℤ) : toPlace e (m * 10 ^ k) = m * 10 ^ k := by
  obtain ⟨j, rfl⟩ : ∃ j : ℕ, k = e + j := ⟨(k - e).toNat, by omega⟩
  have hscaled : (m : ℚ) * 10 ^ (e + j : ℤ) / 10 ^ e = ((m * 10 ^ j : ℤ) : ℚ) := by
    rw [zpow_add₀ (by norm_num), zpow_natCast]
    push_cast
    field_simp
  unfold toPlace
  rw [hscaled, toEven_intCast, zpow_add₀ (by norm_num), zpow_natCast]
  push_cast
  ring

/-- A number between two powers of ten has its last place `p` places below the upper one. -/
theorem toDigits_eq_toPlace {c : ℤ} {q : ℚ} (hlow : 10 ^ (c - 1) ≤ |q|) (hhigh : |q| < 10 ^ c)
    (p : ℕ) : toDigits p q = toPlace (c - p) q := by
  have hpos : 0 < |q| := lt_of_lt_of_le (by positivity) hlow
  have hfrom := (Int.zpow_le_iff_le_log (b := 10) (by norm_num) hpos).mp (by exact_mod_cast hlow)
  have hto := (Int.lt_zpow_iff_log_lt (b := 10) (by norm_num) hpos).mp (by exact_mod_cast hhigh)
  have hlog : Int.log 10 |q| + 1 = c := by omega
  rw [toDigits, hlog]

theorem toDigits_zero (p : ℕ) : toDigits p 0 = 0 := by
  rw [toDigits, toPlace, zero_div, ← Int.cast_zero, toEven_intCast]
  simp

/-- Shifting a number shifts its leading digit. -/
theorem log_abs_mul_zpow {q : ℚ} (hq : q ≠ 0) (e : ℤ) :
    Int.log 10 |q * 10 ^ e| = Int.log 10 |q| + e := by
  have hpow : (0 : ℚ) < 10 ^ e := by positivity
  have habs : |q * 10 ^ e| = |q| * 10 ^ e := by rw [abs_mul, abs_of_pos hpow]
  have hpos : 0 < |q * 10 ^ e| := abs_pos.mpr (mul_ne_zero hq hpow.ne')
  apply le_antisymm
  · rw [← Int.lt_add_one_iff, ← Int.lt_zpow_iff_log_lt (by norm_num) hpos, Nat.cast_ofNat, habs,
      add_right_comm, zpow_add₀ (by norm_num)]
    gcongr
    exact_mod_cast Int.lt_zpow_succ_log_self (b := 10) (by norm_num) |q|
  · rw [← Int.zpow_le_iff_le_log (by norm_num) hpos, Nat.cast_ofNat, habs, zpow_add₀ (by norm_num)]
    gcongr
    exact_mod_cast Int.zpow_log_le_self (b := 10) (by norm_num) (abs_pos.mpr hq)

/-- Digits are counted from the first one, wherever the point is. -/
theorem toDigits_mul_zpow (p : ℕ) (q : ℚ) (e : ℤ) :
    toDigits p (q * 10 ^ e) = toDigits p q * 10 ^ e := by
  by_cases hq : q = 0
  · rw [hq, zero_mul, toDigits_zero, zero_mul]
  have hplace : Int.log 10 |q * 10 ^ e| + 1 - p = (Int.log 10 |q| + 1 - p) + e := by
    rw [log_abs_mul_zpow hq]
    ring
  unfold toDigits toPlace
  rw [hplace, zpow_add₀ (by norm_num), mul_div_mul_right _ _ (by positivity), mul_assoc]

/-- A number with at most `p` digits is left alone. -/
theorem toDigits_of_lt {p : ℕ} {m : ℤ} (hm : |m| < 10 ^ p) (k : ℤ) :
    toDigits p (m * 10 ^ k) = m * 10 ^ k := by
  rw [toDigits_mul_zpow]
  congr 1
  by_cases hzero : m = 0
  · rw [hzero, Int.cast_zero, toDigits_zero]
  have hpos : (0 : ℚ) < |(m : ℚ)| := by positivity
  have hlog : Int.log 10 |(m : ℚ)| < p := by
    rw [← Int.lt_zpow_iff_log_lt (by norm_num) hpos, zpow_natCast]
    exact_mod_cast hm
  have hplace := toPlace_of_le (by omega : Int.log 10 |(m : ℚ)| + 1 - p ≤ 0) m
  rwa [zpow_zero, mul_one] at hplace

/-! ## Decimals -/

namespace Decimal

/-- Division to a whole number rounds the quotient to the nearest one, a half to even. -/
theorem nearestEven_divRound (n : ℕ) {d : ℕ} (hd : 0 < d) :
    NearestEven ((n : ℚ) / d) (divRound n d : ℕ) := by
  have hd' : (0 : ℚ) < d := by exact_mod_cast hd
  have hsplit : (n : ℚ) / d = (n / d : ℕ) + ((n % d : ℕ) : ℚ) / d := by
    have hnat : ((n / d : ℕ) : ℚ) * d + (n % d : ℕ) = n := by exact_mod_cast Nat.div_add_mod' n d
    rw [← hnat, add_div, mul_div_cancel_right₀ _ hd'.ne']
  have hmod := Nat.mod_lt n hd
  unfold NearestEven divRound
  rw [hsplit]
  -- from here on `q` is the quotient and `r` the remainder
  generalize n / d = q
  generalize n % d = r at hmod ⊢
  have hrest : (r : ℚ) / d < 1 := (div_lt_one hd').mpr (by exact_mod_cast hmod)
  have hbelow : (r : ℚ) / d < 1 / 2 ↔ 2 * r < d := by
    rw [div_lt_div_iff₀ hd' (by norm_num), one_mul, mul_comm]
    exact_mod_cast Iff.rfl
  have hhalf : (r : ℚ) / d = 1 / 2 ↔ 2 * r = d := by
    rw [div_eq_div_iff hd'.ne' (by norm_num), one_mul, mul_comm]
    exact_mod_cast Iff.rfl
  split
  · next hup =>
    have hdist : |(q : ℚ) + r / d - ((q + 1 : ℕ) : ℤ)| = 1 - (r : ℚ) / d := by
      push_cast
      rw [abs_of_nonpos (by linarith)]
      ring
    rw [hdist]
    rcases hup with h | ⟨h, hodd⟩
    · have habove : ¬(r : ℚ) / d ≤ 1 / 2 := by
        rw [le_iff_lt_or_eq, hbelow, hhalf]
        omega
      exact .inl (by linarith)
    · refine .inr ⟨by rw [hhalf.mpr h]; norm_num, ?_⟩
      exact_mod_cast (Nat.odd_iff.mpr hodd).add_one
  · next hdown =>
    have hdist : |(q : ℚ) + r / d - ((q : ℕ) : ℤ)| = (r : ℚ) / d := by
      rw [Int.cast_natCast, add_sub_cancel_left, abs_of_nonneg (by positivity)]
    rw [hdist, hbelow, hhalf]
    rcases lt_trichotomy (2 * r) d with h | h | h
    · exact .inl h
    · refine .inr ⟨h, ?_⟩
      exact_mod_cast Nat.even_iff.mpr (by omega : q % 2 = 0)
    · omega

/-- Dropping digits rounds to the nearest integer. -/
theorem dropDigits_eq_toEven (n k : ℕ) : (dropDigits n k : ℤ) = toEven (n / 10 ^ k) := by
  unfold dropDigits
  by_cases hfew : digitCount n < k
  · have hlt := lt_pow_digitCount n
    have hpow : 10 ^ digitCount n * 10 ≤ 10 ^ k := by
      rw [← pow_succ]
      exact Nat.pow_le_pow_right (by norm_num) hfew
    rw [if_pos hfew]
    refine (toEven_eq (.inl ?_)).symm
    rw [Nat.cast_zero, Int.cast_zero, sub_zero, abs_of_nonneg (by positivity),
      div_lt_div_iff₀ (by positivity) (by norm_num)]
    exact_mod_cast (by omega : n * 2 < 1 * 10 ^ k)
  · have hnear := nearestEven_divRound n (d := 10 ^ k) (by positivity)
    rw [if_neg hfew, ← toEven_eq hnear, Nat.cast_pow, Nat.cast_ofNat]

theorem abs_signedDigits (d : Decimal) : |d.signedDigits| = d.digits := by
  unfold signedDigits
  split
  · rw [abs_neg, Nat.abs_cast]
  · rw [Nat.abs_cast]

theorem value_eq_abs (d : Decimal) : d.value = (if d.negative then -1 else 1) * |d.value| := by
  rw [abs_value, ← mul_assoc, ← value_eq]

/-- Of many digits the first `p` are kept, and a carry is only written in another way. -/
theorem value_round_of_many {p k : ℕ} (hp : 1 ≤ p) (hk : 0 < k) {d : Decimal}
    (hcount : digitCount d.digits = p + k) :
    (d.round p).value =
      (if d.negative then -1 else 1) * (dropDigits d.digits k * 10 ^ (d.exponent + k)) := by
  have hexcess : digitCount d.digits - p = k := by omega
  unfold round
  simp only [hexcess, if_neg hk.ne']
  by_cases hcarry : dropDigits d.digits k = 10 ^ p
  · obtain ⟨m, rfl⟩ : ∃ m, p = m + 1 := ⟨p - 1, by omega⟩
    rw [if_pos hcarry, value_eq, hcarry, Nat.add_sub_cancel, zpow_add₀ (by norm_num) _ 1, zpow_one]
    push_cast
    ring
  · rw [if_neg hcarry, value_eq, mul_assoc]

/-- Rounding to `p` digits. -/
theorem value_round_eq {p : ℕ} (hp : 1 ≤ p) (d : Decimal) :
    (d.round p).value = toDigits p d.value := by
  by_cases hfew : digitCount d.digits ≤ p
  · have hsmall : |d.signedDigits| < 10 ^ p := by
      rw [abs_signedDigits]
      exact_mod_cast lt_pow_of_digitCount_le hfew
    rw [round_of_digitCount_le hfew]
    exact (toDigits_of_lt hsmall d.exponent).symm
  · obtain ⟨k, hk⟩ : ∃ k, digitCount d.digits = p + k := ⟨digitCount d.digits - p, by omega⟩
    have hdigits : d.digits ≠ 0 := by
      intro hzero
      rw [hzero, digitCount, if_pos (by norm_num)] at hfew
      omega
    -- rounding to `p` digits drops the last `k` of them
    have hplace : toDigits p d.digits = dropDigits d.digits k * 10 ^ k := by
      have hlow : (10 : ℚ) ^ ((digitCount d.digits : ℤ) - 1) ≤ |(d.digits : ℚ)| := by
        have hexp : (digitCount d.digits : ℤ) - 1 = (digitCount d.digits - 1 : ℕ) := by omega
        rw [Nat.abs_cast, hexp, zpow_natCast]
        exact_mod_cast pow_digitCount_le hdigits
      have hhigh : |(d.digits : ℚ)| < (10 : ℚ) ^ (digitCount d.digits : ℤ) := by
        rw [Nat.abs_cast, zpow_natCast]
        exact_mod_cast lt_pow_digitCount d.digits
      have hexp : (digitCount d.digits : ℤ) - p = k := by omega
      rw [toDigits_eq_toPlace hlow hhigh, hexp, toPlace, zpow_natCast, ← dropDigits_eq_toEven,
        Int.cast_natCast]
    have habs : toDigits p |d.value| = dropDigits d.digits k * 10 ^ (d.exponent + k) := by
      rw [abs_value, toDigits_mul_zpow, hplace, mul_assoc, add_comm, zpow_add₀ (by norm_num),
        zpow_natCast]
    rw [value_round_of_many hp (by omega) hk, value_eq_abs d, ← habs]
    cases d.negative
    · simp
    · simp [toDigits_neg]

/-- Taking away places. -/
theorem value_placed (d : Decimal) : d.placed.value = toPlace (-(maxPlaces : ℤ)) d.value := by
  unfold placed
  by_cases hlong : d.exponent < -(maxPlaces : ℤ)
  · have hshift : ¬0 ≤ d.exponent + (maxPlaces : ℤ) := by omega
    obtain ⟨k, hk⟩ : ∃ k : ℕ, -(maxPlaces : ℤ) = d.exponent + k :=
      ⟨(-(maxPlaces : ℤ) - d.exponent).toNat, by omega⟩
    have hnat : (-(d.exponent + (maxPlaces : ℤ))).toNat = k := by omega
    have habs : toPlace (-(maxPlaces : ℤ)) |d.value| =
        dropDigits d.digits k * 10 ^ (-(maxPlaces : ℤ)) := by
      have hscaled : |d.value| / 10 ^ (-(maxPlaces : ℤ)) = d.digits / 10 ^ k := by
        rw [abs_value, hk, zpow_add₀ (by norm_num), zpow_natCast]
        field_simp
      rw [toPlace, hscaled, ← dropDigits_eq_toEven, Int.cast_natCast]
    rw [if_pos hlong, atPlaces]
    simp only [if_neg hshift, hnat]
    rw [value_eq, mul_assoc, ← habs, value_eq_abs d]
    cases d.negative
    · simp
    · simp [toPlace_neg]
  · rw [if_neg hlong]
    exact (toPlace_of_le (not_lt.mp hlong) d.signedDigits).symm

/-! ### Quotients -/

/-- The mark is put on a quotient by adding one at most, and it leaves a last digit that is neither
zero nor five. -/
theorem markInexact_cases (q : ℕ) :
    (markInexact q = q ∨ markInexact q = q + 1) ∧ markInexact q % 5 ≠ 0 := by
  unfold markInexact
  split <;> omega

/-- A mark stands for all numbers between two integers: it is nearest to what they are nearest to,
once the last digit is dropped. -/
theorem toEven_markInexact {q : ℕ} {t : ℚ} (hlow : q < t) (hhigh : t < q + 1) (k : ℕ) :
    toEven (t / 10 ^ (k + 1)) = toEven (markInexact q / 10 ^ (k + 1)) := by
  obtain ⟨hmark, hfive⟩ := markInexact_cases q
  obtain ⟨n, hn⟩ : ∃ n, n = toEven ((markInexact q : ℚ) / 10 ^ (k + 1)) := ⟨_, rfl⟩
  have hnear := nearestEven_toEven ((markInexact q : ℚ) / 10 ^ (k + 1))
  rw [← hn] at hnear ⊢
  generalize markInexact q = m at hmark hfive hnear
  have hhalf : ∀ x : ℚ, x / 10 ^ (k + 1) - n = (x - n * 10 ^ (k + 1)) / 10 ^ (k + 1) := by
    intro x
    field_simp
  have hpos : (0 : ℚ) < 10 ^ (k + 1) := by positivity
  have hten : (10 : ℚ) ^ (k + 1) = ((2 * (5 * 10 ^ k) : ℤ) : ℚ) := by
    push_cast
    ring
  have hle : |(m : ℚ) - n * 10 ^ (k + 1)| ≤ ((5 * 10 ^ k : ℤ) : ℚ) := by
    have habs : |(m : ℚ) / 10 ^ (k + 1) - n| ≤ 1 / 2 := by
      rcases hnear with h | h
      · exact h.le
      · exact h.1.le
    rw [hhalf, abs_div, abs_of_pos hpos, div_le_iff₀ hpos] at habs
    rw [hten] at habs ⊢
    push_cast at habs ⊢
    linarith
  -- a multiple of five would be needed to be half way
  have hbounds : n * (2 * (5 * 10 ^ k)) - 5 * 10 ^ k < (m : ℤ) ∧
      (m : ℤ) < n * (2 * (5 * 10 ^ k)) + 5 * 10 ^ k := by
    rw [hten] at hle
    have hint : |(m : ℤ) - n * (2 * (5 * 10 ^ k))| ≤ 5 * 10 ^ k := by exact_mod_cast hle
    rw [abs_le] at hint
    have hmul : n * (2 * (5 * 10 ^ k)) = 5 * (n * (2 * 10 ^ k)) := by ring
    rw [hmul] at hint ⊢
    omega
  refine toEven_eq (.inl ?_)
  have hfrom : ((n * (2 * (5 * 10 ^ k)) - 5 * 10 ^ k : ℤ) : ℚ) ≤ (q : ℤ) := by
    exact_mod_cast (by omega : n * (2 * (5 * 10 ^ k)) - 5 * 10 ^ k ≤ (q : ℤ))
  have hto : ((q + 1 : ℤ) : ℚ) ≤ ((n * (2 * (5 * 10 ^ k)) + 5 * 10 ^ k : ℤ) : ℚ) := by
    exact_mod_cast (by omega : (q + 1 : ℤ) ≤ n * (2 * (5 * 10 ^ k)) + 5 * 10 ^ k)
  rw [hhalf, abs_div, abs_of_pos hpos, div_lt_iff₀ hpos, hten, abs_lt]
  push_cast at hfrom hto ⊢
  constructor <;> linarith

/-- The mark has as many digits as the integer. -/
theorem toDigits_markInexact {p q : ℕ} {t : ℚ} (hq : 10 ^ p ≤ q) (hlow : q < t)
    (hhigh : t < q + 1) : toDigits p t = toDigits p (markInexact q) := by
  obtain ⟨hmark, hfive⟩ := markInexact_cases q
  have hq0 : q ≠ 0 := by
    have hpos : 0 < 10 ^ p := by positivity
    omega
  obtain ⟨k, hk⟩ : ∃ k, digitCount q = p + (k + 1) := by
    have hlt := lt_of_le_of_lt hq (lt_pow_digitCount q)
    have hcount := (Nat.pow_lt_pow_iff_right (by norm_num)).mp hlt
    exact ⟨digitCount q - p - 1, by omega⟩
  have hfrom := pow_digitCount_le hq0
  have hto := lt_pow_digitCount q
  rw [hk] at hfrom hto
  have hten : 10 ^ (p + (k + 1)) = 5 * (2 * 10 ^ (p + k)) := by ring
  -- up to the next power of ten, the last of `p` digits stands at the same place
  have hplace : ∀ x : ℚ, (q : ℚ) ≤ x → x < 10 ^ (p + (k + 1)) →
      toDigits p x = toPlace (k + 1 : ℕ) x := by
    intro x hx hx'
    have hxpos : 0 ≤ x := le_trans (Nat.cast_nonneg q) hx
    have hlow' : (10 : ℚ) ^ (((p + (k + 1) : ℕ) : ℤ) - 1) ≤ |x| := by
      have hexp : ((p + (k + 1) : ℕ) : ℤ) - 1 = (p + (k + 1) - 1 : ℕ) := by omega
      rw [abs_of_nonneg hxpos, hexp, zpow_natCast]
      exact le_trans (by exact_mod_cast hfrom) hx
    have hhigh' : |x| < (10 : ℚ) ^ ((p + (k + 1) : ℕ) : ℤ) := by
      rwa [abs_of_nonneg hxpos, zpow_natCast]
    have hexp : ((p + (k + 1) : ℕ) : ℤ) - p = (k + 1 : ℕ) := by omega
    rw [toDigits_eq_toPlace hlow' hhigh', hexp]
  have htop : t < 10 ^ (p + (k + 1)) := lt_of_lt_of_le hhigh (by exact_mod_cast hto)
  have hmarkfrom : (q : ℚ) ≤ markInexact q := by exact_mod_cast (by omega : q ≤ markInexact q)
  have hmarkto : (markInexact q : ℚ) < 10 ^ (p + (k + 1)) := by
    exact_mod_cast (by omega : markInexact q < 10 ^ (p + (k + 1)))
  rw [hplace t hlow.le htop, hplace _ hmarkfrom hmarkto, toPlace, toPlace, zpow_natCast,
    toEven_markInexact hlow hhigh]

/-- A quotient is rounded once. -/
theorem value_div {p : ℕ} (hp : 1 ≤ p) (a : Decimal) {b : Decimal} (hb : b.digits ≠ 0) :
    (a.div p b).value = toDigits p (a.value / b.value) := by
  by_cases ha : a.digits = 0
  · have hdiv : (a.div p b).value = 0 := by
      rw [div, if_pos ha, value_eq]
      simp
    have hzero : a.value / b.value = 0 := by
      rw [value_div_value, ha]
      simp
    rw [hdiv, hzero, toDigits_zero]
  · obtain ⟨n, d, e, hd, hlarge, hquotient, ⟨-, x, hdiv, hx⟩ | ⟨hrest, hdiv⟩⟩ :=
      exists_div_parts p ha hb
    · rw [hdiv, value_round_eq hp, hx]
    · have hd' : (0 : ℚ) < d := by exact_mod_cast hd
      have hlow : ((n / d : ℕ) : ℚ) < n / d := by
        rw [lt_div_iff₀ hd']
        have hsplit := Nat.div_add_mod' n d
        exact_mod_cast (by omega : n / d * d < n)
      have hhigh : (n : ℚ) / d < (n / d : ℕ) + 1 := by
        rw [div_lt_iff₀ hd']
        exact_mod_cast Nat.lt_mul_of_div_lt (Nat.lt_succ_self _) hd
      have hmany : 10 ^ p ≤ n / d := (Nat.le_div_iff_mul_le hd).mpr hlarge
      have hround : toDigits p (markInexact (n / d) * 10 ^ e) =
          toDigits p ((n : ℚ) / d * 10 ^ e) := by
        rw [toDigits_mul_zpow, toDigits_mul_zpow, toDigits_markInexact hmany hlow hhigh]
      rw [hdiv, value_round_eq hp, value_eq, hquotient, mul_assoc]
      split
      · rw [neg_one_mul, neg_one_mul, toDigits_neg, toDigits_neg, hround]
      · rw [one_mul, one_mul, hround]

/-! ### Fitting -/

/-- What has no more digits than the precision fits if it is not too large without its places beyond
the permitted ones. -/
theorem fit_eq {d : Decimal} (hcount : digitCount d.digits ≤ precision) :
    d.fit = if |d.placed.value| ≤ maxMagnitude then .ok d.placed else failMaths .overflow := by
  by_cases hsize : |d.placed.value| ≤ maxMagnitude
  · rw [if_pos hsize, fit_of_abs_value_le hcount hsize]
  · have hlarge : (ofNat maxMagnitude).lt (d.placed.magnitude precision) = true := by
      rw [lt_iff_value_lt, magnitude_of_digitCount_le (digitCount_placed_le hcount)]
      rw [abs_value, not_le] at hsize
      simpa [ofNat, value_eq] using hsize
    rw [if_neg hsize, fit, fit?_of_digitCount_le hcount, hlarge, if_pos rfl]

/-- Two digits are enough to move a decimal by no more than a twentieth. -/
theorem abs_round_sub_le_twentieth {p : ℕ} (hp : 2 ≤ p) (d : Decimal) :
    |(d.round p).value - d.value| ≤ |d.value| / 20 := by
  have hround := abs_round_sub_le (one_le_two.trans hp) d
  have hhundred : (10 : ℚ) ^ 2 ≤ 10 ^ p := pow_le_pow_right₀ (by norm_num) hp
  have hfew : 5 * |d.value| / 10 ^ p ≤ 5 * |d.value| / 10 ^ 2 := by gcongr
  linarith

/-- Rounding to two digits or more adds a twentieth at most to the magnitude. -/
theorem abs_round_le {p : ℕ} (hp : 2 ≤ p) (d : Decimal) :
    |(d.round p).value| ≤ 21 / 20 * |d.value| := by
  have hround := abs_round_sub_le_twentieth hp d
  have htri := abs_sub_abs_le_abs_sub (d.round p).value d.value
  linarith

end Decimal

namespace Number

open Decimal

/-- What a decimal keeps of a number: as many digits as the precision has, and no more places than
are permitted. -/
def kept (q : ℚ) : ℚ := toPlace (-(maxPlaces : ℤ)) (toDigits precision q)

theorem kept_neg (q : ℚ) : kept (-q) = -kept q := by
  unfold kept
  rw [toDigits_neg, toPlace_neg]

/-- A quotient of decimals, if it is not too large. -/
theorem value_quotient {a b w : Decimal} (h : a.quotient b = .ok w) :
    w.value = kept (a.value / b.value) := by
  unfold quotient at h
  split at h
  · cases h
  · next hb =>
    obtain ⟨rfl, -⟩ := fit_eq_ok h
    rw [value_placed, value_div (by decide) a hb, kept]

theorem kept_nonneg {q : ℚ} (hq : 0 ≤ q) : 0 ≤ kept q :=
  toPlace_nonneg _ (toPlace_nonneg _ hq)

/-- Rounding to the precision and then to the permitted places keeps what a decimal keeps. -/
theorem value_placed_round (d : Decimal) : (d.round precision).placed.value = kept d.value := by
  rw [value_placed, value_round_eq (by decide), kept]

/-- Rounding adds no places. -/
theorem kept_of_places {d : Decimal} (hplaces : -(maxPlaces : ℤ) ≤ d.exponent) :
    kept d.value = toDigits precision d.value := by
  rw [kept, ← value_round_eq (by decide), Decimal.value]
  exact toPlace_of_le (hplaces.trans (exponent_le_round _ d)) _

/-- What is rounded fits if what is kept of it is not too large. -/
theorem round_fit_eq (d : Decimal) :
    (d.round precision).fit =
      if |kept d.value| ≤ maxMagnitude then .ok (d.round precision).placed
      else failMaths .overflow := by
  rw [fit_eq (digitCount_round_le (by decide) d), value_placed_round]

/-- What is rounded and fits is kept. -/
theorem value_round_fit {d w : Decimal} (h : (d.round precision).fit = .ok w) :
    w.value = kept d.value := by
  obtain ⟨rfl, -⟩ := fit_eq_ok h
  exact value_placed_round d

/-- A decimal whose kept value is not too large is fitted to the range of numbers, and has that
value. -/
theorem exists_round_fit {d : Decimal} (hsize : |kept d.value| ≤ maxMagnitude) :
    ∃ w, (d.round precision).fit = .ok w ∧ w.value = kept d.value ∧ w.InRange := by
  have hfit := round_fit_eq d
  rw [if_pos hsize] at hfit
  exact ⟨_, hfit, value_placed_round d, (round_fit_inRange d).of_ok hfit⟩

/-- What is not nearly too large fits after it is rounded. -/
theorem abs_kept_value_le {d : Decimal} (hsize : |d.value| ≤ 10 ^ 27) :
    |kept d.value| ≤ maxMagnitude := by
  have hround := abs_round_le (p := precision) (by decide) d
  have hfit := fit_of_abs_le (digitCount_round_le (p := precision) (by decide) d) (by linarith)
  rw [← value_round_fit hfit]
  exact ((round_fit_inRange d).of_ok hfit).abs_value_lt.le

/-- A fraction as a decimal. -/
theorem value_toDecimal {q : ℚ} {v : Decimal} (h : (ofRat q).toDecimal = .ok v) :
    v.value = kept q := by
  have hvalue := value_quotient h
  rwa [value_ofInt, value_ofInt, Int.cast_natCast, Rat.num_div_den] at hvalue

end Number

/-! ## Short numbers -/

/-- The number has a decimal form with no more digits and no more places than a decimal keeps. -/
def IsShort (q : ℚ) : Prop :=
  ∃ m e : ℤ, q = m * 10 ^ e ∧ |m| < 10 ^ precision ∧ -(maxPlaces : ℤ) ≤ e

theorem IsShort.toDigits_eq {q : ℚ} (h : IsShort q) : toDigits precision q = q := by
  obtain ⟨m, e, rfl, hm, -⟩ := h
  exact toDigits_of_lt hm e

theorem IsShort.kept_eq {q : ℚ} (h : IsShort q) : Number.kept q = q := by
  rw [Number.kept, h.toDigits_eq]
  obtain ⟨m, e, rfl, -, he⟩ := h
  exact toPlace_of_le he m

theorem Decimal.InRange.isShort {v : Decimal} (h : v.InRange) : IsShort v.value := by
  refine ⟨v.signedDigits, v.exponent, rfl, ?_, h.places⟩
  rw [abs_signedDigits]
  exact_mod_cast lt_pow_of_digitCount_le h.digits

end Mathpad
