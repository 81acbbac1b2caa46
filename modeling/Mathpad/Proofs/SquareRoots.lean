import Mathpad.Proofs.HalfEven
import Mathpad.Proofs.PlainNotation
import Mathpad.Proofs.Representable

/-!
# Square roots and their tags

The square root of a decimal is the whole root of its digits, after they were shifted so far that it
has more of them than are kept. So a root that has an end is found, and what is rounded is never
mistaken for one. Whether the tag of a root says so is another matter, since the root is squared to
see if it is exact, and the square is rounded.
-/
set_option autoImplicit false

namespace Mathpad

namespace Decimal

/-! ## Pairs of digits -/

theorem hundred_zpow (k : ℤ) : (100 : ℚ) ^ k = 10 ^ (2 * k) := by
  rw [zpow_mul]
  norm_num

/-- The square of a power of ten is a power of a hundred. -/
theorem ten_zpow_sq (k : ℤ) : ((10 : ℚ) ^ k) ^ 2 = 100 ^ k := by
  rw [hundred_zpow, mul_comm, zpow_mul, zpow_ofNat]

/-- An even power of ten is taken out of a decimal. -/
theorem abs_value_eq_hundreds (d : Decimal) :
    |d.value| = (d.digits * 10 ^ (d.exponent - 2 * halfExponent d.exponent).toNat : ℕ) *
      100 ^ halfExponent d.exponent := by
  obtain ⟨j, hj⟩ : ∃ j, j = halfExponent d.exponent := ⟨_, rfl⟩
  have hrest : 0 ≤ d.exponent - 2 * j := by
    rw [hj, halfExponent, Int.fdiv_eq_ediv_of_nonneg _ (by omega)]
    omega
  have hexp : d.exponent = (d.exponent - 2 * j).toNat + 2 * j := by omega
  have hsplit : (10 : ℚ) ^ d.exponent = 10 ^ (d.exponent - 2 * j).toNat * 100 ^ j := by
    rw [hundred_zpow, ← zpow_natCast, ← zpow_add₀ (by norm_num), ← hexp]
  rw [← hj, abs_value, hsplit]
  push_cast
  ring

/-- The shift brings the digits to `p + 1` pairs, or an odd number of them to one less. -/
theorem pow_le_shifted {n : ℕ} (hn : n ≠ 0) (p : ℕ) {s : ℤ}
    (hs : s = (p : ℤ) + 1 - ((digitCount n + 1) / 2 : ℕ)) : (100 : ℚ) ^ p ≤ n * 100 ^ s := by
  have hcount : ((10 ^ (digitCount n - 1) : ℕ) : ℚ) ≤ n := by exact_mod_cast pow_digitCount_le hn
  have hpos := digitCount_pos n
  calc (100 : ℚ) ^ p = 10 ^ (2 * (p : ℤ)) := by rw [← zpow_natCast, hundred_zpow]
    _ ≤ 10 ^ (((digitCount n - 1 : ℕ) : ℤ) + 2 * s) := zpow_le_zpow_right₀ (by norm_num) (by omega)
    _ = (10 ^ (digitCount n - 1) : ℕ) * 100 ^ s := by
      rw [zpow_add₀ (by norm_num), zpow_natCast, hundred_zpow, Nat.cast_pow, Nat.cast_ofNat]
    _ ≤ n * 100 ^ s := by gcongr

/-! ## Roots of digits -/

/-- The whole root of a whole part is the whole root of the number. -/
theorem floorRoot_div_spec (a : ℕ) {b : ℕ} (hb : 0 < b) :
    (floorRoot 2 (a / b) : ℚ) ^ 2 ≤ a / b ∧ (a : ℚ) / b < (floorRoot 2 (a / b) + 1) ^ 2 := by
  obtain ⟨hlow, hhigh⟩ := floorRoot_spec (by decide : 1 ≤ 2) (a / b)
  have hb' : (0 : ℚ) < b := by exact_mod_cast hb
  constructor
  · rw [le_div_iff₀ hb']
    exact_mod_cast (Nat.mul_le_mul_right b hlow).trans (Nat.div_mul_le_self a b)
  · have hlt : a < (a / b + 1) * b := by
      rw [mul_comm]
      exact Nat.lt_mul_div_succ a hb
    rw [div_lt_iff₀ hb']
    exact_mod_cast hlt.trans_le (Nat.mul_le_mul_right b hhigh)

/-- The root of a multiple of a square is a multiple of its root. -/
theorem cast_div_of_sq {a b m : ℕ} (hb : 0 < b) (h : a ^ 2 = m * b ^ 2) :
    ((a / b : ℕ) : ℚ) = a / b := by
  have hdvd : b ∣ a := (Nat.pow_dvd_pow_iff two_ne_zero).mp ⟨m, by rw [h, mul_comm]⟩
  exact Nat.cast_div hdvd (by exact_mod_cast hb.ne')

/-- The root of a shifted square, shifted back. -/
theorem value_shifted_back {m r : ℕ} {s : ℤ} (h : m * 100 ^ s.toNat = r * r * 100 ^ (-s).toNat)
    (j : ℤ) :
    (⟨false, r * 10 ^ (-s).toNat / 10 ^ s.toNat, j⟩ : Decimal).value = r * 10 ^ (j - s) := by
  have hsquare : (r * 10 ^ (-s).toNat) ^ 2 = m * (10 ^ s.toNat) ^ 2 := by
    rw [mul_pow, pow_right_comm 10 (-s).toNat, pow_right_comm 10 s.toNat, sq r]
    exact h.symm
  have hten : (10 : ℚ) ^ (-s) = 10 ^ (-s).toNat / 10 ^ s.toNat := by
    rw [← pow_toNat_div (by norm_num), neg_neg]
  rw [value_eq, if_neg Bool.false_ne_true, cast_div_of_sq (by positivity) hsquare, sub_eq_add_neg,
    zpow_add₀ (by norm_num), hten]
  push_cast
  ring

/-- A square root works on a number with more than `p` pairs of digits before the point. What is
rounded is the root of it, or its whole part, marked, where it is no square. -/
theorem exists_sqrt_parts (p : ℕ) {d : Decimal} (hd : d.digits ≠ 0) :
    ∃ (r : ℕ) (e : ℤ), (100 : ℚ) ^ p ≤ |d.value| / 100 ^ e ∧
      (r : ℚ) ^ 2 ≤ |d.value| / 100 ^ e ∧ |d.value| / 100 ^ e < (r + 1) ^ 2 ∧
      ((r : ℚ) ^ 2 = |d.value| / 100 ^ e ∧
          (∃ x : Decimal, d.sqrt p = x.round p ∧ x.value = r * 10 ^ e) ∨
        (r : ℚ) ^ 2 ≠ |d.value| / 100 ^ e ∧
          d.sqrt p = (⟨false, markInexact r, e⟩ : Decimal).round p) := by
  have hvalue := abs_value_eq_hundreds d
  obtain ⟨j, hj⟩ : ∃ j, j = halfExponent d.exponent := ⟨_, rfl⟩
  rw [← hj] at hvalue
  obtain ⟨m, hm⟩ : ∃ m, m = d.digits * 10 ^ (d.exponent - 2 * j).toNat := ⟨_, rfl⟩
  rw [← hm] at hvalue
  obtain ⟨s, hs⟩ : ∃ s : ℤ, s = (p : ℤ) + 1 - ((digitCount m + 1) / 2 : ℕ) := ⟨_, rfl⟩
  obtain ⟨a, ha⟩ : ∃ a, a = m * 100 ^ s.toNat := ⟨_, rfl⟩
  obtain ⟨b, hb⟩ : ∃ b, b = 100 ^ (-s).toNat := ⟨_, rfl⟩
  obtain ⟨r, hr⟩ : ∃ r, r = floorRoot 2 (a / b) := ⟨_, rfl⟩
  have hbpos : 0 < b := by rw [hb]; positivity
  have hmne : m ≠ 0 := by rw [hm]; positivity
  -- the number is the magnitude of the decimal in units that have a root
  have hshift : (m : ℚ) * 100 ^ s = a / b := by
    rw [← pow_toNat_div (by norm_num) s, ha, hb, mul_div_assoc']
    push_cast
    rfl
  have hunits : |d.value| / 100 ^ (j - s) = a / b := by
    rw [← hshift, hvalue, zpow_sub₀ (by norm_num)]
    field_simp
  have hlarge := pow_le_shifted hmne p hs
  have hroot := floorRoot_div_spec a hbpos
  rw [hshift] at hlarge
  rw [← hr] at hroot
  refine ⟨r, j - s, ?_⟩
  rw [hunits]
  refine ⟨hlarge, hroot.1, hroot.2, ?_⟩
  have hsquare : a = r * r * b ↔ (r : ℚ) ^ 2 = a / b := by
    rw [eq_div_iff (by exact_mod_cast hbpos.ne'), sq, eq_comm]
    exact_mod_cast Iff.rfl
  have hsqrt : d.sqrt p = if a = r * r * b then
      (⟨false, r * 10 ^ (-s).toNat / 10 ^ s.toNat, j⟩ : Decimal).round p
      else (⟨false, markInexact r, j - s⟩ : Decimal).round p := by
    unfold sqrt
    simp only [if_neg hd, ← hj, ← hm, ← hs, ← ha, ← hb, ← hr]
  rw [hsqrt]
  by_cases hexact : a = r * r * b
  · rw [if_pos hexact]
    rw [ha, hb] at hexact
    exact .inl ⟨hsquare.mp (by rwa [ha, hb]), _, rfl, value_shifted_back hexact j⟩
  · rw [if_neg hexact]
    exact .inr ⟨fun h => hexact (hsquare.mpr h), rfl⟩

/-! ## The square root of a decimal -/

/-- What is rounded is at most twice the root. -/
theorem exists_sqrt_eq_round {p : ℕ} (hp : 1 ≤ p) (d : Decimal) :
    ∃ x : Decimal, d.sqrt p = x.round p ∧ 0 ≤ x.value ∧ x.value ^ 2 ≤ 4 * |d.value| := by
  by_cases hd : d.digits = 0
  · obtain ⟨x, hx⟩ : ∃ x : Decimal, x = ⟨d.negative, 0, halfExponent d.exponent⟩ := ⟨_, rfl⟩
    have hsqrt : d.sqrt p = x := by
      unfold sqrt
      simp only [hd, if_true, hx]
    have hcount : digitCount x.digits ≤ p := by
      rw [hx, digitCount_zero]
      exact hp
    have hvalue : x.value = 0 := by
      rw [hx, value_eq]
      simp
    exact ⟨x, by rw [hsqrt, round_of_digitCount_le hcount], hvalue.ge, by rw [hvalue]; positivity⟩
  obtain ⟨r, e, hlarge, hlow, hhigh, hcases⟩ := exists_sqrt_parts p hd
  have hscale : (0 : ℚ) < 100 ^ e := by positivity
  rw [le_div_iff₀ hscale] at hlow
  -- the root comes out, or it is between two integers and the lower one is marked
  rcases hcases with ⟨-, x, hx, hvalue⟩ | ⟨-, hx⟩
  · refine ⟨x, hx, by rw [hvalue]; positivity, ?_⟩
    rw [hvalue, mul_pow, ten_zpow_sq]
    have hnonneg := abs_nonneg d.value
    linarith
  · refine ⟨_, hx, by rw [value_eq, if_neg Bool.false_ne_true]; positivity, ?_⟩
    have hone : 1 ≤ r := by
      by_contra hzero
      obtain rfl : r = 0 := by omega
      have hpow : (1 : ℚ) ≤ 100 ^ p := one_le_pow₀ (by norm_num)
      norm_num at hhigh
      linarith
    have hmark : (markInexact r : ℚ) ≤ 2 * r := by
      have hle : markInexact r ≤ 2 * r := by
        unfold markInexact
        split <;> omega
      exact_mod_cast hle
    rw [value_eq, if_neg Bool.false_ne_true, one_mul, mul_pow, ten_zpow_sq]
    calc (markInexact r : ℚ) ^ 2 * 100 ^ e ≤ (2 * (r : ℚ)) ^ 2 * 100 ^ e := by gcongr
      _ = 4 * ((r : ℚ) ^ 2 * 100 ^ e) := by ring
      _ ≤ 4 * |d.value| := by linarith

/-- Few digits whose square makes up many pairs are followed by zeros. -/
theorem nonneg_of_pairs {p : ℕ} {m k : ℤ} (hm : |m| < 10 ^ p)
    (h : (100 : ℚ) ^ p ≤ m ^ 2 * 100 ^ k) : 0 ≤ k := by
  by_contra hneg
  have hsmall : (100 : ℚ) ^ k ≤ 1 := zpow_le_one_of_nonpos₀ (by norm_num) (by omega)
  have hfew : (m : ℚ) ^ 2 < 100 ^ p := by
    have habs : |(m : ℚ)| < 10 ^ p := by exact_mod_cast hm
    calc (m : ℚ) ^ 2 = |(m : ℚ)| ^ 2 := (sq_abs _).symm
      _ < (10 ^ p) ^ 2 := by gcongr
      _ = 100 ^ p := by rw [pow_right_comm]; norm_num
  have hle : (m : ℚ) ^ 2 * 100 ^ k ≤ m ^ 2 * 1 := by gcongr
  linarith

/-- A root that is short is found. -/
theorem value_sqrt_of_sq {d : Decimal} {u : ℚ} (hu : 0 ≤ u) (hshort : IsShort u)
    (h : u ^ 2 = |d.value|) : (d.sqrt precision).value = u := by
  by_cases hd : d.digits = 0
  · have hzero : |d.value| = 0 := by rw [abs_value, hd, Nat.cast_zero, zero_mul]
    rw [hzero, sq_eq_zero_iff] at h
    unfold sqrt
    simp [hd, value_eq, h]
  obtain ⟨r, e, hlarge, hlow, hhigh, hcases⟩ := exists_sqrt_parts precision hd
  have hdigits := hshort.toDigits_eq
  obtain ⟨m, k, rfl, hm, -⟩ := hshort
  have hunits : |d.value| / 100 ^ e = ((m : ℚ) * 10 ^ (k - e)) ^ 2 := by
    rw [← h, mul_pow, mul_pow, ten_zpow_sq, ten_zpow_sq, zpow_sub₀ (by norm_num), mul_div_assoc]
  rw [hunits] at hlarge hlow hhigh hcases
  -- so in these units the root is a whole number
  obtain ⟨n, hn⟩ : ∃ n : ℕ, (m : ℚ) * 10 ^ (k - e) = n := by
    rw [mul_pow, ten_zpow_sq] at hlarge
    obtain ⟨i, hi⟩ := Int.eq_ofNat_of_zero_le (nonneg_of_pairs hm hlarge)
    have hm0 : 0 ≤ m := by exact_mod_cast nonneg_of_mul_nonneg_left hu (by positivity)
    obtain ⟨n, rfl⟩ := Int.eq_ofNat_of_zero_le hm0
    exact ⟨n * 10 ^ i, by rw [hi, zpow_natCast]; push_cast; rfl⟩
  obtain rfl : r = n := by
    rw [hn] at hlow hhigh
    have hle : r ^ 2 ≤ n ^ 2 := by exact_mod_cast hlow
    have hlt : n ^ 2 < (r + 1) ^ 2 := by exact_mod_cast hhigh
    have hle' := (Nat.pow_le_pow_iff_left two_ne_zero).mp hle
    have hlt' := (Nat.pow_lt_pow_iff_left two_ne_zero).mp hlt
    omega
  rcases hcases with ⟨-, x, hx, hvalue⟩ | ⟨hne, -⟩
  · have hroot : x.value = m * 10 ^ k := by
      rw [hvalue, ← hn, mul_assoc, ← zpow_add₀ (by norm_num), sub_add_cancel]
    rw [hx, value_round_eq (by decide), hroot, hdigits]
  · exact absurd (by rw [hn]) hne

theorem IsLargest.abs_value {v : Decimal} (hv : v.IsLargest) : |v.value| = maxMagnitude := by
  rw [Decimal.abs_value, hv.1, hv.2, zpow_zero, mul_one]

/-- A decimal that can be represented is not beyond the largest magnitude. -/
theorem Representable.abs_value_le {v : Decimal} (hv : v.Representable) :
    |v.value| ≤ maxMagnitude := by
  by_cases hlargest : v.IsLargest
  · exact hlargest.abs_value.le
  · exact (abs_value_lt hv hlargest).le

/-- The square root of a decimal that can be represented is in range, and it is the exact root if
that is short. -/
theorem exists_sqrt_fit {v : Decimal} (hv : v.Representable) (hneg : v.isBelowZero = false) :
    ∃ w, (v.sqrt precision).fit = .ok w ∧ w.InRange ∧ 0 ≤ w.value ∧
      ∀ u, 0 ≤ u → IsShort u → u ^ 2 = v.value → w.value = u := by
  have hnonneg : 0 ≤ v.value := by
    rw [← not_lt, ← isBelowZero_iff, hneg]
    simp
  obtain ⟨x, hx, hx0, hxsq⟩ := exists_sqrt_eq_round (p := precision) (by decide) v
  have hxsize : |x.value| ≤ 10 ^ 27 := by
    have hsize := hv.abs_value_le
    have hmax : 4 * (maxMagnitude : ℚ) ≤ (10 ^ 27) ^ 2 := by
      exact_mod_cast (show 4 * maxMagnitude ≤ (10 ^ 27) ^ 2 by decide)
    exact abs_le_of_sq_le_sq (by linarith) (by norm_num)
  obtain ⟨w, hw, hvalue, hrange⟩ := Number.exists_round_fit (Number.abs_kept_value_le hxsize)
  rw [← hx] at hw
  refine ⟨w, hw, hrange, ?_, fun u hu hshort h => ?_⟩
  · rw [hvalue]
    exact Number.kept_nonneg hx0
  · have hroot := value_sqrt_of_sq hu hshort (by rw [h, abs_of_nonneg hnonneg])
    have hkept := hshort.kept_eq
    rw [hx, value_round_eq (by decide)] at hroot
    rw [Number.kept, hshort.toDigits_eq] at hkept
    rw [hvalue, Number.kept, hroot, hkept]

/-! ## Squaring back -/

/-- The largest magnitude lies between two squares. -/
theorem maxMagnitude_not_isSquare : ¬IsSquare (maxMagnitude : ℚ) := by
  rw [Rat.isSquare_natCast_iff]
  rintro ⟨r, hr⟩
  have hlow : 281474976710655 * 281474976710655 < maxMagnitude := by decide
  have hhigh : maxMagnitude < 281474976710656 * 281474976710656 := by decide
  rcases Nat.lt_or_ge r 281474976710656 with hlt | hge
  · have hle := Nat.mul_self_le_mul_self (Nat.le_of_lt_succ hlt)
    omega
  · have hle := Nat.mul_self_le_mul_self hge
    omega

/-- Squaring a root back is never too much. -/
theorem Representable.abs_kept_sq_le {v : Decimal} (hv : v.Representable) {u : ℚ}
    (h : u ^ 2 = v.value) : |Number.kept (u ^ 2)| ≤ maxMagnitude := by
  have hlargest : ¬v.IsLargest := by
    intro hlargest
    refine maxMagnitude_not_isSquare ⟨u, ?_⟩
    rw [← hlargest.abs_value, ← h, abs_of_nonneg (sq_nonneg u), sq]
  rw [h, Number.kept_of_places hv.places, ← value_round_eq (by decide)]
  exact (round_inRange hv.places (abs_value_lt hv hlargest)).abs_value_lt.le

end Decimal

namespace Number

open Decimal

/-- The product by which a root `w` is checked: its square, or for a fraction the product with the
root of the denominator. -/
def rootCheck (w : Decimal) : Number → ℚ
  | .ratio _ d => w.value * Nat.sqrt d.natAbs
  | .decimal .. => w.value * w.value

/-- A root is tagged as exact if and only if its square compares equal. -/
theorem tag_eq_exact_iff {a b : Decimal} :
    (if a.sameValue b then Accuracy.exact else .approximate) = .exact ↔ a.value = b.value := by
  rw [← sameValue_iff]
  split <;> simp_all

/-- What is rounded and then found to be right was right before if it needed no rounding. -/
theorem value_eq_iff_isShort {x back : Decimal} (hback : (x.round precision).fit = .ok back) {r : ℚ}
    (hr : back.value = r) : x.value = r ↔ IsShort x.value := by
  constructor
  · intro hx
    rw [hx, ← hr]
    exact ((round_fit_inRange x).of_ok hback).isShort
  · intro hshort
    rw [← hr, value_round_fit hback, hshort.kept_eq]

/-! ## Roots of decimals -/

/-- A root of a decimal that is tagged as exact is one if and only if its square is kept in full: it
is the rounded square that was compared. -/
theorem sqrt_decimal_exact {v w : Decimal}
    (h : (decimal v .exact).sqrt = .ok (.decimal w .exact)) :
    w.value ^ 2 = v.value ↔ IsShort (w.value * w.value) := by
  unfold sqrt at h
  split at h
  · cases h
  obtain ⟨root, hroot, h⟩ := Outcome.bind_eq_ok.mp h
  obtain ⟨square, hsquare, h⟩ := Outcome.bind_eq_ok.mp h
  have htag := Except.ok.inj h
  rw [Number.decimal.injEq] at htag
  obtain ⟨rfl, hsame⟩ := htag
  rw [← value_mul, ← value_eq_iff_isShort hsquare (tag_eq_exact_iff.mp hsame), value_mul, sq]

/-- A decimal with a short root has that root. It is tagged as exact if and only if the decimal
itself is kept in full. -/
theorem sqrt_decimal_of_sq {v : Decimal} (hv : v.Representable) {u : ℚ} (hu : 0 ≤ u)
    (hshort : IsShort u) (h : u ^ 2 = v.value) :
    ∃ w a, (decimal v .exact).sqrt = .ok (.decimal w a) ∧ w.value = u ∧
      (a = .exact ↔ IsShort v.value) := by
  have hneg : v.isBelowZero = false := by
    rw [← Bool.not_eq_true, isBelowZero_iff, not_lt, ← h]
    exact sq_nonneg u
  obtain ⟨w, hw, -, -, hroot⟩ := exists_sqrt_fit hv hneg
  have hvalue := hroot u hu hshort h
  have hmul : (w.mul w).value = u ^ 2 := by rw [value_mul, hvalue, sq]
  obtain ⟨square, hsquare, hkept, hrange⟩ :=
    exists_round_fit (d := w.mul w) (by rw [hmul]; exact hv.abs_kept_sq_le h)
  refine ⟨w, if square.sameValue v then .exact else .approximate, ?_, hvalue, ?_⟩
  · simp only [sqrt, isNegative, hneg, hw]
    rw [if_neg Bool.false_ne_true, ok_bind, hsquare, ok_bind]
    rfl
  rw [hmul, h] at hkept
  rw [tag_eq_exact_iff]
  exact ⟨fun hsame => hsame ▸ hrange.isShort, fun hexact => by rw [hkept, hexact.kept_eq]⟩

/-! ## Roots of fractions -/

/-- The root of a fraction is tagged exact only where both parts are squares. -/
theorem sqrt_ofRat {q : ℚ} (hq : Fits q) (hnonneg : 0 ≤ q) :
    (ofRat q).sqrt = match Mathpad.exactRoot? 2 q.num.natAbs, Mathpad.exactRoot? 2 q.den with
      | some r, some s => do
        let root ← (Decimal.ofNat r).quotient (Decimal.ofNat s)
        let back ← ((root.mul (Decimal.ofNat s)).round precision).fit
        return .decimal root (if back.sameValue (Decimal.ofNat r) then .exact else .approximate)
      | _, _ => do
        let v ← (ofRat q).toDecimal
        return .decimal (← (v.sqrt precision).fit) .approximate := by
  have hneg : (ofRat q).isNegative = false := by
    rw [← Bool.not_eq_true, isNegative_ofRat, not_lt]
    exact hnonneg
  have hsimplify : (ofRat q).simplify = .ok (ofRat q) := by
    rw [← checked_of_fits hq]
    exact simplify_ofRat_eq q
  unfold sqrt
  rw [hneg, if_neg Bool.false_ne_true]
  change (do let x ← (ofRat q).simplify; _) = _
  rw [hsimplify]
  rfl

/-- A fraction whose parts are squares is the square of a fraction. -/
theorem eq_div_sq {q : ℚ} (hq : 0 ≤ q) {r s : ℕ} (hnum : r ^ 2 = q.num.natAbs)
    (hden : s ^ 2 = q.den) : (s : ℚ) ≠ 0 ∧ q = (r / s) ^ 2 := by
  have hs : s ≠ 0 := by
    rintro rfl
    exact q.den_nz hden.symm
  have hcast : (q.num.natAbs : ℚ) = q.num := by
    rw [Nat.cast_natAbs, abs_of_nonneg (Rat.num_nonneg.mpr hq)]
  refine ⟨Nat.cast_ne_zero.mpr hs, ?_⟩
  rw [div_pow, ← Nat.cast_pow, ← Nat.cast_pow, hnum, hden, hcast, Rat.num_div_den]

/-- A root of a fraction that is tagged as exact is one if and only if its product with the root of
the denominator is kept in full. -/
theorem sqrt_ofRat_exact {q : ℚ} (hq : Fits q) {w : Decimal}
    (h : (ofRat q).sqrt = .ok (.decimal w .exact)) :
    w.value ^ 2 = q ↔ IsShort (w.value * Nat.sqrt q.den) := by
  have hnonneg : 0 ≤ q := by
    rw [← not_lt, ← isNegative_ofRat]
    intro hneg
    unfold sqrt at h
    rw [if_pos hneg] at h
    cases h
  rw [sqrt_ofRat hq hnonneg] at h
  split at h
  · next r s hr hs =>
    obtain ⟨root, hroot, h⟩ := Outcome.bind_eq_ok.mp h
    obtain ⟨back, hback, h⟩ := Outcome.bind_eq_ok.mp h
    -- the tag is exact only if multiplying back gave the numerator again
    have htag := Except.ok.inj h
    rw [Number.decimal.injEq] at htag
    obtain ⟨rfl, hsame⟩ := htag
    have hden : s ^ 2 = q.den := exactRoot?_pow (by decide) hs
    have hsqrt : Nat.sqrt q.den = s := by rw [← hden, sq, Nat.sqrt_eq]
    obtain ⟨hs0, hq'⟩ := eq_div_sq hnonneg (exactRoot?_pow (by decide) hr) hden
    have hroot0 : 0 ≤ root.value := by
      rw [value_quotient hroot, value_ofNat, value_ofNat]
      exact kept_nonneg (by positivity)
    have hexact : root.value ^ 2 = q ↔ root.value * s = r := by
      rw [hq', pow_left_inj₀ hroot0 (by positivity) two_ne_zero, eq_div_iff hs0]
    have hcheck := value_eq_iff_isShort hback (tag_eq_exact_iff.mp hsame)
    rw [value_mul, value_ofNat, value_ofNat] at hcheck
    rw [hsqrt, hexact, hcheck]
  · obtain ⟨v, -, h⟩ := Outcome.bind_eq_ok.mp h
    obtain ⟨root, -, h⟩ := Outcome.bind_eq_ok.mp h
    cases h

/-- A fraction with a short root has that root, and it is tagged as exact. -/
theorem sqrt_ofRat_of_sq {q : ℚ} (hq : Fits q) {u : ℚ} (hu : 0 ≤ u) (hshort : IsShort u)
    (h : u ^ 2 = q) : ∃ w, (ofRat q).sqrt = .ok (.decimal w .exact) ∧ w.value = u := by
  have hfits : Fits u := fits_of_pow two_ne_zero h hq
  obtain ⟨w, hw⟩ := exists_toDecimal hfits
  have hvalue : w.value = u := by rw [value_toDecimal hw, hshort.kept_eq]
  have hnum : u.num.natAbs ^ 2 = q.num.natAbs := by rw [← h, Rat.num_pow, Int.natAbs_pow]
  have hden : u.den ^ 2 = q.den := by rw [← h, Rat.den_pow]
  have hcast : (u.num.natAbs : ℤ) = u.num := Int.natAbs_of_nonneg (Rat.num_nonneg.mpr hu)
  have hquotient : (Decimal.ofNat u.num.natAbs).quotient (Decimal.ofNat u.den) = .ok w := by
    rw [ofNat_eq_ofInt, ofNat_eq_ofInt, hcast]
    exact hw
  -- the root times its denominator is the numerator, a word, so nothing is rounded
  have hproduct : (w.mul (Decimal.ofNat u.den)).value = u.num := by
    rw [value_mul, hvalue, value_ofNat, Rat.mul_den_eq_num]
  have hword : |u.num| < 10 ^ 20 := by
    rw [Int.abs_eq_natAbs]
    exact_mod_cast natAbs_lt_of_isWord hfits.1
  have hwhole : IsShort u.num :=
    ⟨u.num, 0, by rw [zpow_zero, mul_one], hword.trans (by norm_num [precision]), by decide⟩
  obtain ⟨back, hback, hkept, -⟩ := exists_round_fit (d := w.mul (Decimal.ofNat u.den)) <| by
    refine abs_kept_value_le ?_
    rw [hproduct]
    exact_mod_cast hword.le.trans (by norm_num)
  rw [hproduct, hwhole.kept_eq] at hkept
  have hsame : back.sameValue (Decimal.ofNat u.num.natAbs) = true := by
    rw [sameValue_iff, hkept, value_ofNat, ← Int.cast_natCast, hcast]
  refine ⟨w, ?_, hvalue⟩
  rw [sqrt_ofRat hq (h ▸ sq_nonneg u), exactRoot?_of_pow (by decide) hnum,
    exactRoot?_of_pow (by decide) hden]
  simp only [hquotient, hback, hsame, ok_bind, if_true]
  rfl

/-! ## Tags -/

/-- A root that is tagged exact is the root exactly if the product that it was checked by needs no
rounding. A root that is short is always found, and it is tagged exact unless it is the root of a
decimal that is not short itself. -/
theorem sqrt_exact {x : Number} (hx : x.Representable) (hexact : x.accuracy = .exact) :
    (∀ w, x.sqrt = .ok (.decimal w .exact) → (w.value ^ 2 = x.value ↔ IsShort (x.rootCheck w))) ∧
    ∀ u, 0 ≤ u → IsShort u → u ^ 2 = x.value →
      ∃ w a, x.sqrt = .ok (.decimal w a) ∧ w.value = u ∧
        (a = .exact ↔ (x.IsDecimal → IsShort x.value)) := by
  cases hx.lowest with
  | @ratio q hq =>
    rw [value_ofRat]
    refine ⟨fun w hw => sqrt_ofRat_exact hq hw, fun u hu hshort h => ?_⟩
    obtain ⟨w, hw, hvalue⟩ := sqrt_ofRat_of_sq hq hu hshort h
    refine ⟨w, .exact, hw, hvalue, iff_of_true rfl ?_⟩
    rintro ⟨_, _, hdecimal⟩
    cases hdecimal
  | decimal v a =>
    obtain rfl : a = .exact := hexact
    refine ⟨fun w hw => sqrt_decimal_exact hw, fun u hu hshort h => ?_⟩
    obtain ⟨w, a, hw, hvalue, htag⟩ := sqrt_decimal_of_sq hx hu hshort h
    exact ⟨w, a, hw, hvalue, htag.trans ⟨fun hv _ => hv, fun hv => hv ⟨v, .exact, rfl⟩⟩⟩

/-- The root of two and a quarter is one and a half, and it is tagged exact. -/
theorem sqrt_exact_two_and_a_quarter :
    Representable (.decimal ⟨false, 225, -2⟩ .exact) ∧
    (decimal ⟨false, 225, -2⟩ .exact).accuracy = .exact ∧
    ∃ w, (decimal ⟨false, 225, -2⟩ .exact).sqrt = .ok (.decimal w .exact) ∧ w.value = 3 / 2 ∧
      IsShort (w.value * w.value) := by
  have hx : Representable (.decimal ⟨false, 225, -2⟩ .exact) := ⟨by decide, by decide⟩
  have hvalue : (decimal ⟨false, 225, -2⟩ .exact).value = 9 / 4 := by
    norm_num [value, Decimal.value_eq]
  have hshort : IsShort (decimal ⟨false, 225, -2⟩ .exact).value :=
    ⟨225, -2, by rw [hvalue]; norm_num, by norm_num [precision], by decide⟩
  have hroot : IsShort (3 / 2) := ⟨15, -1, by norm_num, by norm_num [precision], by decide⟩
  obtain ⟨w, a, hw, hthree, htag⟩ :=
    (sqrt_exact hx rfl).2 (3 / 2) (by norm_num) hroot (by rw [hvalue]; norm_num)
  obtain rfl := htag.mpr fun _ => hshort
  exact ⟨hx, rfl, w, hw, hthree, ((sqrt_exact hx rfl).1 w hw).mp (by rw [hthree, hvalue]; norm_num)⟩

/-- The root of eleven is tagged exact, and so is that of a hundred forty-ninths, although neither has
an end. The root of the largest square of a whole number is found, and tagged as an approximation. -/
theorem sqrt_tags_wrong :
    (∃ w, (decimal (.ofNat 11) .exact).sqrt = .ok (.decimal w .exact) ∧ w.value ^ 2 ≠ 11) ∧
    (∃ w, (ratio 100 49).sqrt = .ok (.decimal w .exact) ∧ w.value ^ 2 ≠ 100 / 49) ∧
    (decimal (.ofNat (281474976710655 ^ 2)) .exact).sqrt =
      .ok (.decimal (.ofNat 281474976710655) .approximate) := by
  refine ⟨⟨⟨false, 3316624790355399849114932737, -27⟩, by decide +kernel, ?_⟩,
    ⟨⟨false, 1428571428571428571428571429, -27⟩, by decide +kernel, ?_⟩, by decide +kernel⟩
  · norm_num [Decimal.value_eq]
  · norm_num [Decimal.value_eq]

end Number

end Mathpad
