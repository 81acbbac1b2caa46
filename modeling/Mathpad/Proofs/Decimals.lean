import Mathlib.Tactic.NormNum
import Mathlib.Tactic.Ring
import Mathpad.Number.Basic

/-!
# Decimals that stand for whole numbers

A 64-bit integer divided by one is that integer again, digit for digit. Comparing the
decimals of two such integers therefore compares the integers.
-/
set_option autoImplicit false

namespace Mathpad.Decimal

/-! ## Digits -/

/-- A number below a power of ten has no more digits than that has zeros. -/
theorem digitCount_le {n k : Nat} (hk : 1 ≤ k) (h : n < 10 ^ k) : digitCount n ≤ k := by
  induction k generalizing n with
  | zero => omega
  | succ k ih =>
    rw [digitCount]
    by_cases hsmall : n < 10
    · rw [if_pos hsmall]
      omega
    · rw [if_neg hsmall]
      have hk' : 1 ≤ k := by
        by_contra hzero
        have hk0 : k = 0 := by omega
        rw [hk0] at h
        omega
      have hdiv : n / 10 < 10 ^ k := by
        rw [Nat.div_lt_iff_lt_mul (by norm_num), ← pow_succ]
        exact h
      have hle := ih hk' hdiv
      omega

/-- As many zeros as are asked for are removed from the end, if they are there. -/
theorem stripZeros_mul (n k : Nat) : stripZeros (n * 10 ^ k) k = (n, k) := by
  induction k with
  | zero => simp [stripZeros]
  | succ k ih =>
    have hten : n * 10 ^ (k + 1) = n * 10 ^ k * 10 := by ring
    rw [stripZeros, hten, Nat.mul_mod_left, if_pos rfl, Nat.mul_div_cancel _ (by norm_num), ih]

/-! ## Whole numbers -/

/-- A whole number that is short enough, divided by one. -/
theorem div_ofInt_one {p : Nat} {n : Int} (h : digitCount n.natAbs ≤ p) :
    (ofInt n).div p (ofInt 1) = ofInt n := by
  unfold div
  by_cases hzero : n.natAbs = 0
  · have hn : n = 0 := by omega
    rw [hn]
    rfl
  · have hdigits : ¬(ofInt n).digits = 0 := hzero
    -- the quotient is computed to more digits than it has, and what is too much is zeros
    have hshift : (digitCount (ofInt 1).digits - digitCount (ofInt n).digits + p + 1 : Int)
        = ((2 + p - digitCount n.natAbs : Nat) : Int) := by
      have hone : digitCount (ofInt 1).digits = 1 := by simp [ofInt, digitCount]
      have hsame : digitCount (ofInt n).digits = digitCount n.natAbs := rfl
      rw [hone, hsame]
      omega
    simp only [hdigits, if_false, hshift]
    have hnat : (-((2 + p - digitCount n.natAbs : Nat) : Int)).toNat = 0 := by omega
    have hd : (ofInt 1).digits * 10 ^ (-((2 + p - digitCount n.natAbs : Nat) : Int)).toNat = 1 := by
      rw [hnat]
      rfl
    have hsame : (ofInt n).digits = n.natAbs := rfl
    rw [hd, Nat.mod_one, if_pos rfl, Nat.div_one, Int.toNat_natCast, hsame, stripZeros_mul]
    have hround : (⟨decide (n < 0), n.natAbs, 0⟩ : Decimal).round p =
        ⟨decide (n < 0), n.natAbs, 0⟩ :=
      round_of_digitCount_le h
    have hsign : ((ofInt n).negative != (ofInt 1).negative) = decide (n < 0) := by
      simp [ofInt]
    have hexp : (ofInt n).exponent - (ofInt 1).exponent
        - ((2 + p - digitCount n.natAbs : Nat) : Int)
        + ((2 + p - digitCount n.natAbs : Nat) : Int) = 0 := by
      have he : (ofInt n).exponent - (ofInt 1).exponent = 0 := rfl
      rw [he]
      omega
    rw [hsign, hexp]
    exact hround

/-- An integer as a decimal has itself as coefficient. -/
theorem signedDigits_ofInt (n : Int) : (ofInt n).signedDigits = n := by
  change (if decide (n < 0) then -(n.natAbs : Int) else n.natAbs) = n
  by_cases hneg : n < 0
  · rw [if_pos (by simpa using hneg)]
    omega
  · rw [if_neg (by simpa using hneg)]
    omega

/-- Integers compare as decimals as they do. -/
theorem order_ofInt (m n : Int) : (ofInt m).order (ofInt n) = compare m n := by
  have hunits : ∀ k : Int, (ofInt k).units (min (ofInt m).exponent (ofInt n).exponent) = k := by
    intro k
    have hmin : min (ofInt m).exponent (ofInt n).exponent = 0 := rfl
    rw [hmin, units, signedDigits_ofInt]
    exact mul_one k
  unfold order
  rw [hunits, hunits]

end Decimal

namespace Number

open Decimal

/-- A word has at most 20 digits. -/
theorem natAbs_lt_of_isWord {n : Int} (h : isWord n = true) : n.natAbs < 10 ^ 20 := by
  unfold isWord maxWord at h
  rw [Bool.and_eq_true, decide_eq_true_iff, decide_eq_true_iff] at h
  norm_num at h ⊢
  omega

/-- A 64-bit integer is within the range of decimals. -/
theorem fit_word {n : Int} (h : isWord n = true) : (Decimal.ofInt n).fit = .ok (Decimal.ofInt n) := by
  have habs := natAbs_lt_of_isWord h
  have hcount : digitCount n.natAbs ≤ 20 := digitCount_le (by norm_num) habs
  -- twenty digits are far from the greatest magnitude
  have hlt : (ofNat maxMagnitude).lt ((Decimal.ofInt n).magnitude precision) = false := by
    have hmag : (Decimal.ofInt n).magnitude precision = Decimal.ofInt n.natAbs := by
      have hcount' : digitCount (⟨false, n.natAbs, 0⟩ : Decimal).digits ≤ precision := by
        change digitCount n.natAbs ≤ 28
        omega
      change (⟨false, n.natAbs, 0⟩ : Decimal).round precision = _
      rw [round_of_digitCount_le hcount']
      simp [Decimal.ofInt, Int.natAbs_abs]
    have hmax : ofNat maxMagnitude = Decimal.ofInt maxMagnitude := rfl
    rw [hmag, hmax, Decimal.lt, order_ofInt]
    have hle : (n.natAbs : Int) ≤ maxMagnitude := by
      unfold maxMagnitude
      omega
    rw [beq_eq_false_iff_ne]
    intro hlt
    have hgt := compare_lt_iff_lt.mp hlt
    omega
  have hexp : ¬(Decimal.ofInt n).exponent < -(maxPlaces : Int) := by
    simp [Decimal.ofInt, maxPlaces]
  unfold fit fit?
  simp [hexp, hlt]

/-- A 64-bit integer as a decimal. -/
theorem toDecimal_word {n : Int} (h : isWord n = true) :
    (Number.ratio n 1).toDecimal = .ok (Decimal.ofInt n) := by
  have hcount : digitCount n.natAbs ≤ 20 := digitCount_le (by norm_num) (natAbs_lt_of_isWord h)
  have hone : ¬(Decimal.ofInt 1).digits = 0 := by decide
  rw [toDecimal, quotient, if_neg hone, div_ofInt_one (by unfold precision; omega), fit_word h]

/-- 64-bit integers are compared as integers. -/
theorem order_words {m n : Int} (hm : isWord m = true) (hn : isWord n = true) :
    (Number.ratio m 1).order (.ratio n 1) = .ok (compare m n) := by
  unfold order
  rw [toDecimal_word hm, toDecimal_word hn]
  change Except.ok ((Decimal.ofInt m).order (Decimal.ofInt n)) = _
  rw [order_ofInt]

end Mathpad.Number
