import Mathlib.Data.Rat.Lemmas
import Mathlib.Tactic.FieldSimp
import Mathlib.Tactic.Ring
import Mathpad.Proofs.TermOrder

/-!
# Arithmetic on fractions

A fraction in lowest terms is a rational number. On such fractions every operation gives
the exact result if that fits and overflows if it does not, and the only other failure is to
divide by zero. So each operation equals `checked` of the operation on rational numbers. For
powers this takes a reason, since they are refused before they are worked out: the estimate
of their length, and the reciprocal that a negative power begins with, refuse nothing that
fits.
-/
set_option autoImplicit false

namespace Mathpad

namespace Number

/-- A rational number as a fraction in lowest terms. -/
def ofRat (q : ℚ) : Number := .ratio q.num q.den

/-- Both parts of a rational number are 64-bit integers. -/
def Fits (q : ℚ) : Prop := isWord q.num = true ∧ isWord q.den = true

instance (q : ℚ) : Decidable (Fits q) := inferInstanceAs (Decidable (_ ∧ _))

/-- The outcome of an exact operation: the fraction `q`, if it fits. -/
def Yields (o : Outcome Number) (q : ℚ) : Prop :=
  Meets o (fun x => x = ofRat q ∧ Fits q) Fault.IsOverflow

/-- The fraction `q` if it fits, and otherwise an overflow. -/
def checked (q : ℚ) : Outcome Number := if Fits q then .ok (ofRat q) else failMaths .overflow

theorem checked_of_fits {q : ℚ} (h : Fits q) : checked q = .ok (ofRat q) := if_pos h

theorem checked_of_not_fits {q : ℚ} (h : ¬Fits q) : checked q = failMaths .overflow := if_neg h

/-- A checked fraction is the outcome of an exact operation. -/
theorem checked_yields (q : ℚ) : Yields (checked q) q := by
  by_cases h : Fits q
  · rw [checked_of_fits h]
    exact ⟨rfl, h⟩
  · rw [checked_of_not_fits h]
    exact rfl

/-! ## Lowest terms -/

/-- The numerator and the denominator to which `n / d` is brought. -/
theorem lowest_terms (n : Int) {d : Int} (hd : d ≠ 0) :
    (if d < 0 then -n else n) / max 1 (Int.gcd (if d < 0 then -n else n)
        (if d < 0 then -d else d) : Int) = (n / d : ℚ).num ∧
    (if d < 0 then -d else d) / max 1 (Int.gcd (if d < 0 then -n else n)
        (if d < 0 then -d else d) : Int) = ((n / d : ℚ).den : Int) := by
  have hgcd : Int.gcd (if d < 0 then -n else n) (if d < 0 then -d else d) = d.gcd n := by
    by_cases hneg : d < 0
    · rw [if_pos hneg, if_pos hneg, Int.neg_gcd, Int.gcd_neg, Int.gcd_comm]
    · rw [if_neg hneg, if_neg hneg, Int.gcd_comm]
  have hpos : 1 ≤ d.gcd n := Int.gcd_pos_of_ne_zero_left n hd
  have hmax : max 1 (d.gcd n : Int) = (d.gcd n : Int) := max_eq_right (by exact_mod_cast hpos)
  rw [hgcd, hmax, ← Rat.divInt_eq_div, Rat.num_divInt, Rat.den_divInt, if_neg hd]
  constructor
  -- both signs are those that make the denominator positive
  · congr 1
    by_cases hneg : d < 0
    · rw [if_pos hneg, Int.sign_eq_neg_one_of_neg hneg, neg_one_mul]
    · rw [if_neg hneg, Int.sign_eq_one_of_pos (by omega), one_mul]
  · rw [Int.natCast_div]
    congr 1
    by_cases hneg : d < 0
    · rw [if_pos hneg]
      omega
    · rw [if_neg hneg]
      omega

/-- Reducing a fraction to lowest terms gives the fraction of its value, if that fits. -/
theorem simplify_ratio (n : Int) {d : Int} (hd : d ≠ 0) :
    simplify (.ratio n d) = checked (n / d) := by
  obtain ⟨hnum, hden⟩ := lowest_terms n hd
  simp only [simplify, hnum, hden, word]
  by_cases hn : isWord (n / d : ℚ).num = true
  · by_cases hk : isWord (n / d : ℚ).den = true
    · rw [if_pos hn, if_pos hk, checked_of_fits ⟨hn, hk⟩]
      rfl
    · rw [if_pos hn, if_neg hk, checked_of_not_fits fun h => hk h.2]
      rfl
  · rw [if_neg hn, checked_of_not_fits fun h => hn h.1]
    rfl

theorem simplify_yields (n : Int) {d : Int} (hd : d ≠ 0) :
    Yields (simplify (.ratio n d)) (n / d) := by
  rw [simplify_ratio n hd]
  exact checked_yields _

theorem ofRat_den_ne_zero (q : ℚ) : (q.den : Int) ≠ 0 := by
  exact_mod_cast q.den_nz

theorem hasDenominator_ofRat (q : ℚ) : (ofRat q).HasDenominator := ofRat_den_ne_zero q

theorem ratio_one_eq_ofRat (n : Int) : .ratio n 1 = ofRat n := rfl

/-- A fraction that is in lowest terms already. -/
theorem ratio_eq_ofRat {n d : Int} (hpos : 0 < d) (hgcd : Int.gcd n d = 1) :
    .ratio n d = ofRat (n / d) := by
  unfold ofRat
  rw [Rat.num_div_eq_of_coprime hpos hgcd, Rat.den_div_eq_of_coprime hpos hgcd]

/-! ## Tests -/

theorem simplify_ofRat_eq (q : ℚ) : (ofRat q).simplify = checked q := by
  unfold ofRat
  rw [simplify_ratio _ (ofRat_den_ne_zero q), Int.cast_natCast, Rat.num_div_den]

theorem simplify_ofRat (q : ℚ) : Yields (ofRat q).simplify q := by
  rw [simplify_ofRat_eq]
  exact checked_yields q

theorem isZero_ofRat (q : ℚ) : (ofRat q).isZero = true ↔ q = 0 := by
  simp [ofRat, isZero]

/-- A fraction is whole if and only if its denominator is one. -/
theorem whole?_ofRat (q : ℚ) :
    (ofRat q).whole? = .ok (if q.den = 1 then some q.num else none) := by
  unfold ofRat whole?
  simp only [ofRat_den_ne_zero q, if_false]
  by_cases hone : q.den = 1
  · simp [hone]
  -- in lowest terms only a denominator of one divides the numerator
  · have hmod : ¬q.num % (q.den : Int) = 0 := by
      intro hmod
      have hdvd : (q.den : Int) ∣ q.num := Int.dvd_of_emod_eq_zero hmod
      have hnat : q.den ∣ q.num.natAbs := Int.natCast_dvd.mp hdvd
      exact hone (Nat.Coprime.eq_one_of_dvd q.reduced.symm hnat)
    simp [hone, hmod]

/-! ## Operations -/

/-- The sum of two fractions is checked once it is in lowest terms, and not before. -/
theorem add_ofRat_eq (p q : ℚ) : (ofRat p).add (ofRat q) = checked (p + q) := by
  have hadd := simplify_ratio (p.num * q.den + q.num * p.den)
    (mul_ne_zero (ofRat_den_ne_zero p) (ofRat_den_ne_zero q))
  have hval : ((p.num * q.den + q.num * p.den : Int) : ℚ) / ((p.den * q.den : Int) : ℚ)
      = p + q := by
    have hp' : (p.den : ℚ) ≠ 0 := by exact_mod_cast p.den_nz
    have hq' : (q.den : ℚ) ≠ 0 := by exact_mod_cast q.den_nz
    conv_rhs => rw [← Rat.num_div_den p, ← Rat.num_div_den q]
    push_cast
    field_simp
  rw [hval] at hadd
  exact hadd

theorem add_ofRat (p q : ℚ) : Yields ((ofRat p).add (ofRat q)) (p + q) := by
  rw [add_ofRat_eq]
  exact checked_yields _

/-- The product of two fractions is checked once it is in lowest terms. -/
theorem mul_ofRat_eq (p q : ℚ) : (ofRat p).mul (ofRat q) = checked (p * q) := by
  have hmul := simplify_ratio (p.num * q.num)
    (mul_ne_zero (ofRat_den_ne_zero p) (ofRat_den_ne_zero q))
  have hval : ((p.num * q.num : Int) : ℚ) / ((p.den * q.den : Int) : ℚ) = p * q := by
    conv_rhs => rw [← Rat.num_div_den p, ← Rat.num_div_den q]
    push_cast
    rw [div_mul_div_comm]
  rw [hval] at hmul
  exact hmul

theorem mul_ofRat (p q : ℚ) : Yields ((ofRat p).mul (ofRat q)) (p * q) := by
  rw [mul_ofRat_eq]
  exact checked_yields _

/-- The opposite of a fraction is checked, as the least word has none. -/
theorem neg_ofRat_eq (q : ℚ) : (ofRat q).neg = checked (-q) := by
  have hneg := simplify_ratio (-q.num) (ofRat_den_ne_zero q)
  have hval : ((-q.num : Int) : ℚ) / ((q.den : Int) : ℚ) = -q := by
    conv_rhs => rw [← Rat.num_div_den q]
    push_cast
    rw [neg_div]
  rw [hval] at hneg
  exact hneg

theorem neg_ofRat (q : ℚ) : Yields (ofRat q).neg (-q) := by
  rw [neg_ofRat_eq]
  exact checked_yields _

/-- Fractions are subtracted exactly, as the opposite of the second one is added. -/
theorem sub_ofRat (p q : ℚ) : Yields ((ofRat p).sub (ofRat q)) (p - q) := by
  unfold sub
  refine (neg_ofRat q).bind fun x hx => ?_
  rw [hx.1, sub_eq_add_neg]
  exact add_ofRat p (-q)

/-- The quotient of two fractions is checked once it is in lowest terms and its denominator
positive. -/
theorem div_ofRat_eq (p : ℚ) {q : ℚ} (hq : q ≠ 0) :
    (ofRat p).div (ofRat q) = checked (p / q) := by
  have hzero : ¬(ofRat q).isZero = true := fun h => hq ((isZero_ofRat q).mp h)
  have hdiv := simplify_ratio (p.num * q.den)
    (mul_ne_zero (ofRat_den_ne_zero p) (Rat.num_ne_zero.mpr hq))
  have hval : ((p.num * q.den : Int) : ℚ) / ((p.den * q.num : Int) : ℚ) = p / q := by
    conv_rhs => rw [← Rat.num_div_den p, ← Rat.num_div_den q]
    push_cast
    rw [div_div_div_eq]
  rw [hval] at hdiv
  unfold div
  rw [if_neg hzero]
  exact hdiv

theorem div_ofRat (p : ℚ) {q : ℚ} (hq : q ≠ 0) : Yields ((ofRat p).div (ofRat q)) (p / q) := by
  rw [div_ofRat_eq p hq]
  exact checked_yields _

theorem div_ofRat_zero (p : ℚ) : (ofRat p).div (ofRat 0) = failMaths .divisionByZero := by
  unfold div
  exact if_pos rfl

/-- A quotient overflows exactly when it does not fit, and otherwise fails only at zero. -/
theorem div_ofRat_cases (p q : ℚ) :
    (ofRat p).div (ofRat q) =
      if q = 0 then failMaths .divisionByZero else checked (p / q) := by
  by_cases hq : q = 0
  · rw [if_pos hq, hq, div_ofRat_zero]
  · rw [if_neg hq, div_ofRat_eq p hq]

/-! ## Powers -/

theorem intPow_eq (b : Int) {n : Nat} (hn : n ≠ 0) : intPow b n = b ^ n := by
  unfold intPow
  by_cases hsmall : b.natAbs ≤ 1
  · rw [if_pos hsmall]
    -- such a base has no powers but itself and its absolute value
    have hcases : b = 0 ∨ b = 1 ∨ b = -1 := by omega
    rcases Nat.even_or_odd n with heven | hodd
    · rw [if_pos (Nat.even_iff.mp heven)]
      rcases hcases with rfl | rfl | rfl
      · rw [zero_pow hn, mul_zero]
      · rw [one_pow, mul_one]
      · rw [heven.neg_one_pow, neg_one_mul, neg_neg]
    · have hmod : ¬n % 2 = 0 := by
        have hone := Nat.odd_iff.mp hodd
        omega
      rw [if_neg hmod]
      rcases hcases with rfl | rfl | rfl
      · rw [zero_pow hn]
      · rw [one_pow]
      · rw [hodd.neg_one_pow]
  · rw [if_neg hsmall]

/-- The magnitude of a word has at most 64 bits. -/
theorem natAbs_lt_of_word {n : Int} (h : isWord n = true) : n.natAbs < 2 ^ 64 := by
  simp only [isWord, Bool.and_eq_true, decide_eq_true_iff] at h
  unfold maxWord at h
  omega

/-- A power that is refused for its length has more than sixty-three bits, and is no word. -/
theorem isWord_pow_of_powOverflows {b : Int} {n : Nat} (h : powOverflows b n = true) :
    ¬isWord (b ^ n) = true := by
  simp only [powOverflows, Bool.and_eq_true, decide_eq_true_iff] at h
  obtain ⟨hb, hlength⟩ := h
  have hbits : 2 ^ 64 ≤ (b ^ n).natAbs := by
    calc 2 ^ 64 ≤ 2 ^ (b.natAbs.log2 * n) := Nat.pow_le_pow_right (by norm_num) hlength
      _ = (2 ^ b.natAbs.log2) ^ n := pow_mul ..
      _ ≤ b.natAbs ^ n := Nat.pow_le_pow_left (Nat.log2_self_le (by omega)) n
      _ = (b ^ n).natAbs := (Int.natAbs_pow b n).symm
  exact fun hword => not_lt.mpr hbits (natAbs_lt_of_word hword)

/-- A whole power of a fraction is checked; the parts of a fraction in lowest terms have no common
factor after they are raised to a power. -/
theorem powNat_ofRat_eq (q : ℚ) {n : Nat} (hn : n ≠ 0) :
    (ofRat q).powNat n = checked (q ^ n) := by
  unfold ofRat powNat
  simp only
  by_cases hover : (powOverflows q.num n || powOverflows (q.den : Int) n) = true
  · rw [if_pos hover, checked_of_not_fits]
    rintro ⟨hnum, hden⟩
    rw [Rat.num_pow] at hnum
    rw [Rat.den_pow, Nat.cast_pow] at hden
    rcases Bool.or_eq_true _ _ ▸ hover with hover | hover
    · exact isWord_pow_of_powOverflows hover hnum
    · exact isWord_pow_of_powOverflows hover hden
  · rw [if_neg hover, intPow_eq _ hn, intPow_eq _ hn]
    have hpow := simplify_ratio (q.num ^ n) (pow_ne_zero n (ofRat_den_ne_zero q))
    have hval : ((q.num ^ n : Int) : ℚ) / (((q.den : Int) ^ n : Int) : ℚ) = q ^ n := by
      conv_rhs => rw [← Rat.num_div_den q, div_pow]
      push_cast
      rfl
    rw [hval] at hpow
    exact hpow

/-- A power of a fraction with a natural exponent other than zero is exact. -/
theorem powNat_ofRat (q : ℚ) {n : Nat} (hn : n ≠ 0) : Yields ((ofRat q).powNat n) (q ^ n) := by
  rw [powNat_ofRat_eq q hn]
  exact checked_yields _

theorem fits_one : Fits 1 := ⟨rfl, rfl⟩

/-- A root of a fraction that fits has smaller parts, and no other sign unless the degree is even. -/
theorem fits_of_pow {r q : ℚ} {k : Nat} (hk : k ≠ 0) (hpow : r ^ k = q) (h : Fits q) : Fits r := by
  have hnum : r.num ^ k = q.num := by rw [← hpow, Rat.num_pow]
  have hden : r.den ^ k = q.den := by rw [← hpow, Rat.den_pow]
  have habs : r.num.natAbs ≤ q.num.natAbs := by
    rw [← hnum, Int.natAbs_pow]
    exact Nat.le_self_pow hk _
  have hle : r.den ≤ q.den := by
    rw [← hden]
    exact Nat.le_self_pow hk _
  have hsign : 0 < r.num → 0 < q.num := fun hpos => hnum ▸ pow_pos hpos k
  obtain ⟨hqnum, hqden⟩ := h
  simp only [isWord, Bool.and_eq_true, decide_eq_true_iff] at hqnum hqden
  unfold Fits isWord
  simp only [Bool.and_eq_true, decide_eq_true_iff]
  omega

/-- A negative power is a power of the reciprocal. -/
theorem one_div_pow_natAbs (q : ℚ) {n : Int} (hn : n < 0) : (1 / q) ^ n.natAbs = q ^ n := by
  obtain ⟨k, hk⟩ : ∃ k : Nat, n = -k := ⟨n.natAbs, by omega⟩
  rw [hk, Int.natAbs_neg, Int.natAbs_natCast, zpow_neg, zpow_natCast, one_div, inv_pow]

/-- A whole power of a rational number, unless it divides by zero. -/
theorem powInt_ofRat_eq {q : ℚ} {n : Int} (h : 0 ≤ n ∨ q ≠ 0) :
    (ofRat q).powInt n = checked (q ^ n) := by
  unfold powInt
  by_cases hneg : n < 0
  · have hq : q ≠ 0 := h.resolve_left (by omega)
    have hzero : ¬(ofRat q).isZero = true := fun h => hq ((isZero_ofRat q).mp h)
    have habs : n.natAbs ≠ 0 := by omega
    have hreciprocal : (ofRat q).reciprocal = checked (1 / q) := div_ofRat_eq 1 hq
    rw [if_pos hneg, if_neg hzero, hreciprocal, ← one_div_pow_natAbs q hneg]
    by_cases hfits : Fits (1 / q)
    · rw [checked_of_fits hfits]
      exact powNat_ofRat_eq _ habs
    -- the reciprocal is a root of the power, so that the power does not fit either
    · rw [checked_of_not_fits hfits, checked_of_not_fits fun h => hfits (fits_of_pow habs rfl h)]
      rfl
  · rw [if_neg hneg]
    by_cases hzero : n = 0
    · rw [if_pos hzero, hzero, zpow_zero]
      exact (checked_of_fits fits_one).symm
    · rw [if_neg hzero]
      obtain ⟨k, rfl⟩ : ∃ k : Nat, n = k := ⟨n.toNat, by omega⟩
      rw [zpow_natCast, Int.toNat_natCast]
      exact powNat_ofRat_eq q (by omega)

/-- Whole powers of fractions are exact, also with negative exponents, as long as zero is not
inverted. -/
theorem powInt_ofRat {q : ℚ} {n : Int} (h : 0 ≤ n ∨ q ≠ 0) :
    Yields ((ofRat q).powInt n) (q ^ n) := by
  rw [powInt_ofRat_eq h]
  exact checked_yields _

theorem powInt_zero {n : Int} (hn : n < 0) :
    (ofRat 0).powInt n = failMaths .divisionByZero := by
  unfold powInt
  rw [if_pos hn]
  exact if_pos rfl

/-- A whole power overflows exactly when it does not fit, and otherwise fails only where zero
would be inverted. -/
theorem powInt_ofRat_cases (q : ℚ) (e : Int) :
    (ofRat q).powInt e =
      if q = 0 ∧ e < 0 then failMaths .divisionByZero else checked (q ^ e) := by
  by_cases hinverted : q = 0 ∧ e < 0
  · rw [if_pos hinverted, hinverted.1, powInt_zero hinverted.2]
  · rw [if_neg hinverted, powInt_ofRat_eq]
    by_cases hq : q = 0
    · exact .inl (not_lt.mp fun he => hinverted ⟨hq, he⟩)
    · exact .inr hq

/-- A power with a whole exponent. -/
theorem pow_ofRat (q : ℚ) (n : Int) : (ofRat q).pow (ofRat n) = (ofRat q).powInt n := by
  unfold pow
  rw [whole?_ofRat, ok_bind]
  rfl

end Number
end Mathpad
