import Mathlib.Algebra.Order.Field.Rat
import Mathlib.Algebra.Order.Ring.Basic
import Mathlib.Data.Nat.GCD.Basic
import Mathpad.Proofs.Fractions
import Mathpad.Proofs.Sorting

/-!
# Powers that are fractions

When a power of a fraction is a fraction, it is the root of a whole power, and of no negative
number if its degree is even. What is computed from a decimal is never a fraction again.
-/
set_option autoImplicit false

namespace Mathpad

/-! ## Roots of natural numbers -/

/-- Each bit is kept or not so that the number stays between the powers of the root found so far and
of the root that all the bits still to come would make too large. -/
theorem rootBits_spec {k n i r : Nat} (hlow : r ^ k ≤ n) (hhigh : n < (r + 2 ^ i) ^ k) :
    rootBits k n i r ^ k ≤ n ∧ n < (rootBits k n i r + 1) ^ k := by
  induction i generalizing r with
  | zero => exact ⟨hlow, hhigh⟩
  | succ i ih =>
    rw [rootBits]
    by_cases hbit : (r + 2 ^ i) ^ k ≤ n
    · rw [if_pos hbit]
      refine ih hbit ?_
      rwa [add_assoc, ← two_mul, ← pow_succ']
    · rw [if_neg hbit]
      exact ih hlow (not_le.mp hbit)

/-- The whole root is the largest number whose power is not above. -/
theorem floorRoot_spec {k : Nat} (hk : 1 ≤ k) (n : Nat) :
    floorRoot k n ^ k ≤ n ∧ n < (floorRoot k n + 1) ^ k := by
  unfold floorRoot
  by_cases hsmall : n.log2 < k
  · rw [if_pos hsmall]
    by_cases hzero : n = 0
    · rw [hzero, Nat.zero_min, zero_pow (by omega), zero_add, one_pow]
      exact ⟨le_refl 0, one_pos⟩
    · rw [min_eq_right (by omega), one_pow]
      exact ⟨by omega, (Nat.log2_lt hzero).mp hsmall⟩
  · rw [if_neg hsmall]
    have hnonzero : n ≠ 0 := by
      rintro rfl
      exact hsmall hk
    refine rootBits_spec ?_ ?_
    · rw [zero_pow (by omega)]
      exact Nat.zero_le n
    · rw [zero_add, ← pow_mul, ← Nat.log2_lt hnonzero]
      exact Nat.lt_mul_of_div_lt (Nat.lt_succ_self _) hk

theorem floorRoot_eq {k n r : Nat} (hk : 1 ≤ k) (hlow : r ^ k ≤ n) (hhigh : n < (r + 1) ^ k) :
    floorRoot k n = r := by
  obtain ⟨hlow', hhigh'⟩ := floorRoot_spec hk n
  have hle := lt_of_pow_lt_pow_left₀ k (Nat.zero_le _) (hlow'.trans_lt hhigh)
  have hge := lt_of_pow_lt_pow_left₀ k (Nat.zero_le _) (hlow.trans_lt hhigh')
  omega

theorem floorRoot_pow {k : Nat} (hk : 1 ≤ k) (r : Nat) : floorRoot k (r ^ k) = r :=
  floorRoot_eq hk (le_refl _) (Nat.pow_lt_pow_left (Nat.lt_succ_self r) (by omega))

/-- A root that is found is one. -/
theorem exactRoot?_pow {k n r : Nat} (hk : 1 ≤ k) (h : exactRoot? k n = some r) : r ^ k = n := by
  unfold exactRoot? at h
  by_cases hsmall : n.log2 < k
  · rw [if_pos hsmall] at h
    by_cases hone : n ≤ 1
    · rw [if_pos hone] at h
      have hfloor : floorRoot k n = min n 1 := by rw [floorRoot, if_pos hsmall]
      rw [hfloor, min_eq_left hone] at h
      rw [← Option.some.inj h]
      rcases Nat.le_one_iff_eq_zero_or_eq_one.mp hone with rfl | rfl
      · exact zero_pow (by omega)
      · exact one_pow k
    · rw [if_neg hone] at h
      cases h
  · rw [if_neg hsmall] at h
    by_cases hpow : floorRoot k n ^ k = n
    · rw [if_pos hpow] at h
      rwa [← Option.some.inj h]
    · rw [if_neg hpow] at h
      cases h

/-- A root that there is is found. -/
theorem exactRoot?_of_pow {k n r : Nat} (hk : 1 ≤ k) (h : r ^ k = n) : exactRoot? k n = some r := by
  have hfloor : floorRoot k n = r := h ▸ floorRoot_pow hk r
  unfold exactRoot?
  rw [hfloor]
  by_cases hsmall : n.log2 < k
  · have hone : n ≤ 1 := by
      by_contra hlarge
      have hr : r < 2 := by
        refine lt_of_pow_lt_pow_left₀ k (Nat.zero_le _) ?_
        rw [h]
        exact (Nat.log2_lt (by omega)).mp hsmall
      have hpow : r ^ k ≤ 1 := Nat.pow_le_one_iff (by omega) |>.mpr (by omega)
      omega
    rw [if_pos hsmall, if_pos hone]
  · rw [if_neg hsmall, if_pos h]

namespace Number

/-- A fraction is negative if and only if its value is. -/
theorem isNegative_ofRat (q : ℚ) : (ofRat q).isNegative = true ↔ q < 0 := by
  have hden : ¬(q.den : Int) < 0 := not_lt.mpr (Int.natCast_nonneg _)
  change (decide (q.num < 0) != decide ((q.den : Int) < 0) && q.num != 0) = true ↔ q < 0
  rw [decide_eq_false hden, ← Rat.num_neg, Bool.and_eq_true, Bool.bne_false, decide_eq_true_iff,
    bne_iff_ne]
  exact ⟨fun h => h.1, fun h => ⟨h, h.ne⟩⟩

/-! ## Roots -/

/-- An exact root is one, and that of an even degree is not negative. -/
theorem exactRoot?_ofRat {q : ℚ} {k : Nat} (hk : 1 ≤ k) (heven : ¬(q < 0 ∧ Even k)) {x : Number}
    (h : (ofRat q).exactRoot? k = some x) :
    ∃ r : ℚ, x = ofRat r ∧ r ^ k = q ∧ (Even k → 0 ≤ r) := by
  rw [ofRat, exactRoot?, Int.natAbs_natCast] at h
  split at h
  · next r s hr hs =>
    have hrpow := exactRoot?_pow hk hr
    have hspow := exactRoot?_pow hk hs
    have hspos : 0 < s := by
      refine Nat.pos_of_ne_zero fun hzero => q.den_nz ?_
      rw [← hspow, hzero, zero_pow (by omega)]
    have hcoprime : Nat.Coprime r s := by
      have hparts : Nat.Coprime (r ^ k) (s ^ k) := by
        rw [hrpow, hspow]
        exact q.reduced
      rwa [Nat.coprime_pow_left_iff (by omega), Nat.coprime_pow_right_iff (by omega)] at hparts
    obtain ⟨n, hn⟩ : ∃ n : Int, n = if (Number.ratio q.num q.den).isNegative then -(r : Int) else r :=
      ⟨_, rfl⟩
    have hx : x = .ratio n s := by
      rw [hn]
      exact (Option.some.inj h).symm
    have hnegative : (Number.ratio q.num q.den).isNegative = true ↔ q < 0 := isNegative_ofRat q
    have habs : n.natAbs = r := by
      rw [hn]
      split <;> simp
    -- the numerator of the root has the sign of the fraction
    have hnpow : n ^ k = q.num := by
      rw [hn]
      by_cases hneg : q < 0
      · have hodd : Odd k := Nat.not_even_iff_odd.mp fun h => heven ⟨hneg, h⟩
        have hnum : q.num < 0 := Rat.num_neg.mpr hneg
        rw [if_pos (hnegative.mpr hneg), hodd.neg_pow, ← Int.natCast_pow, hrpow]
        omega
      · have hnum : 0 ≤ q.num := Rat.num_nonneg.mpr (not_lt.mp hneg)
        rw [if_neg (fun h => hneg (hnegative.mp h)), ← Int.natCast_pow, hrpow]
        omega
    refine ⟨n / (s : Int), ?_, ?_, fun hk' => ?_⟩
    · rw [hx]
      refine ratio_eq_ofRat (by exact_mod_cast hspos) ?_
      rw [Int.gcd_def, habs, Int.natAbs_natCast]
      exact hcoprime
    · rw [div_pow, ← Int.cast_pow, hnpow, Int.cast_natCast, ← Nat.cast_pow, hspow, Rat.num_div_den]
    · have hpos : ¬q < 0 := fun hneg => heven ⟨hneg, hk'⟩
      rw [hn, if_neg (fun h => hpos (hnegative.mp h)), Int.cast_natCast, Int.cast_natCast]
      exact div_nonneg (Nat.cast_nonneg r) (Nat.cast_nonneg s)
  · cases h

/-- The root of a power is found, with its sign if the degree is odd. -/
theorem exactRoot?_ofRat_of_pow {r q : ℚ} {k : Nat} (hk : 1 ≤ k) (hpow : r ^ k = q)
    (hr : Even k → 0 ≤ r) : (ofRat q).exactRoot? k = some (ofRat r) := by
  have hnum : r.num.natAbs ^ k = q.num.natAbs := by rw [← hpow, Rat.num_pow, Int.natAbs_pow]
  have hden : r.den ^ k = q.den := by rw [← hpow, Rat.den_pow]
  have hsign : (Number.ratio q.num q.den).isNegative = true ↔ r < 0 := by
    refine (isNegative_ofRat q).trans ⟨fun hq => ?_, fun hneg => ?_⟩
    · by_contra hnonneg
      exact absurd hq (not_lt.mpr (hpow ▸ pow_nonneg (not_lt.mp hnonneg) k))
    · have hodd : Odd k := Nat.not_even_iff_odd.mp fun h => absurd hneg (not_lt.mpr (hr h))
      exact hpow ▸ hodd.pow_neg hneg
  rw [ofRat, exactRoot?, Int.natAbs_natCast, exactRoot?_of_pow hk hnum, exactRoot?_of_pow hk hden]
  by_cases hneg : r < 0
  · have hnegative : r.num < 0 := Rat.num_neg.mpr hneg
    simp only [if_pos (hsign.mpr hneg), ofRat, Option.some_inj, Number.ratio.injEq, and_true]
    omega
  · have hnonneg : 0 ≤ r.num := Rat.num_nonneg.mpr (not_lt.mp hneg)
    simp only [if_neg fun h => hneg (hsign.mp h), ofRat, Option.some_inj, Number.ratio.injEq, and_true]
    omega

/-- A root that is a fraction. -/
theorem root_ofRat {q : ℚ} {k : Nat} (hk : 1 ≤ k) {n d : Int}
    (h : (ofRat q).root k = .ok (.ratio n d)) :
    ∃ r : ℚ, .ratio n d = ofRat r ∧ r ^ k = q ∧ (Even k → 0 ≤ r) := by
  unfold root at h
  by_cases himaginary : (ofRat q).isNegative = true ∧ k % 2 = 0
  · rw [if_pos himaginary] at h
    cases h
  · rw [if_neg himaginary] at h
    have heven : ¬(q < 0 ∧ Even k) := fun hboth =>
      himaginary ⟨(isNegative_ofRat q).mpr hboth.1, Nat.even_iff.mp hboth.2⟩
    cases hroot : (ofRat q).exactRoot? k with
    | some x =>
      rw [hroot] at h
      rw [← Except.ok.inj h]
      exact exactRoot?_ofRat hk heven hroot
    | none =>
      -- an approximation is a decimal
      rw [hroot] at h
      obtain ⟨base, -, h⟩ := Outcome.bind_eq_ok.mp h
      obtain ⟨size, -, h⟩ := Outcome.bind_eq_ok.mp h
      cases h

/-! ## Powers -/

/-- A power that is a fraction. -/
theorem pow_fraction {p q : ℚ} {n d : Int} (h : (ofRat p).pow (ofRat q) = .ok (.ratio n d)) :
    ∃ r : ℚ, .ratio n d = ofRat r ∧ (0 ≤ q ∨ p ≠ 0) ∧ r ^ q.den = p ^ q.num ∧
      (Even q.den → 0 ≤ r) := by
  -- zero has no negative powers, and everything else has all
  have hpower : ∀ {m : Int} {x : Number}, (ofRat p).powInt m = .ok x →
      (0 ≤ m ∨ p ≠ 0) ∧ x = ofRat (p ^ m) := by
    intro m x hx
    by_cases hdefined : 0 ≤ m ∨ p ≠ 0
    · exact ⟨hdefined, ((powInt_ofRat hdefined).of_ok hx).1⟩
    · obtain ⟨hneg, hzero⟩ := not_or.mp hdefined
      rw [not_not.mp hzero, powInt_zero (not_le.mp hneg)] at hx
      cases hx
  rw [pow, whole?_ofRat, ok_bind] at h
  by_cases hone : q.den = 1
  · rw [if_pos hone] at h
    obtain ⟨hdefined, hx⟩ := hpower h
    refine ⟨p ^ q.num, hx, hdefined.imp_left Rat.num_nonneg.mp, by rw [hone, pow_one], fun heven => ?_⟩
    rw [hone] at heven
    exact absurd heven (by decide)
  · rw [if_neg hone] at h
    obtain ⟨e, he, h⟩ := Outcome.bind_eq_ok.mp h
    have hsimple := (simplify_ofRat q).of_ok he
    rw [hsimple.1] at h
    obtain ⟨x, hx, h⟩ := Outcome.bind_eq_ok.mp h
    obtain ⟨hdefined, rfl⟩ := hpower hx
    obtain ⟨r, hr, hpow, heven⟩ := root_ofRat q.den_pos h
    exact ⟨r, hr, hdefined.imp_left Rat.num_nonneg.mp, hpow, heven⟩

/-! ## Decimals -/

/-- The number is no fraction. -/
def IsDecimal (x : Number) : Prop := ∃ v a, x = .decimal v a

/-- The inverse of a decimal is a decimal. -/
theorem reciprocal_decimal (v : Decimal) (a : Accuracy) :
    Meets (Number.decimal v a).reciprocal IsDecimal fun _ => True := by
  rw [reciprocal, div]
  by_cases hzero : (Number.decimal v a).isZero = true
  · rw [if_pos hzero]
    exact trivial
  · rw [if_neg hzero]
    exact (meets_true _).bind fun _ _ => (meets_true _).bind fun _ _ =>
      (meets_true _).bind fun w _ => ⟨w, _, rfl⟩

theorem powNat_decimal (v : Decimal) (a : Accuracy) (n : Nat) :
    Meets ((Number.decimal v a).powNat n) IsDecimal fun _ => True :=
  (meets_true _).bind fun w _ => ⟨w, a, rfl⟩

/-- A whole power of a decimal is a decimal. -/
theorem powInt_decimal (v : Decimal) (a : Accuracy) (n : Int) :
    Meets ((Number.decimal v a).powInt n) IsDecimal fun _ => True := by
  unfold powInt
  by_cases hneg : n < 0
  · rw [if_pos hneg]
    by_cases hzero : (Number.decimal v a).isZero = true
    · rw [if_pos hzero]
      exact trivial
    · rw [if_neg hzero]
      refine (reciprocal_decimal v a).bind ?_
      rintro _ ⟨w, k, rfl⟩
      exact powNat_decimal w k _
  · rw [if_neg hneg]
    by_cases hzero : n = 0
    · rw [if_pos hzero]
      exact ⟨_, a, rfl⟩
    · rw [if_neg hzero]
      exact powNat_decimal v a _

/-- A root of a decimal is a decimal. -/
theorem root_decimal (v : Decimal) (a : Accuracy) (k : Nat) :
    Meets ((Number.decimal v a).root k) IsDecimal fun _ => True := by
  unfold root
  split
  · exact trivial
  · exact (meets_true _).bind fun _ _ => (meets_true _).bind fun _ _ => ⟨_, _, rfl⟩

/-- A power of a decimal is a decimal. -/
theorem pow_decimal (v : Decimal) (a : Accuracy) (q : ℚ) :
    Meets ((Number.decimal v a).pow (ofRat q)) IsDecimal fun _ => True := by
  rw [pow, whole?_ofRat, ok_bind]
  by_cases hone : q.den = 1
  · rw [if_pos hone]
    exact powInt_decimal v a _
  · rw [if_neg hone]
    refine (Meets.mono (simplify_ofRat q) (fun _ h => h) fun _ _ => trivial).bind fun e he => ?_
    rw [he.1]
    refine (powInt_decimal v a _).bind ?_
    rintro _ ⟨w, k, rfl⟩
    exact root_decimal w k _

end Number
end Mathpad
