import Mathlib.Tactic
import Mathpad.Binary64.Text

/-!
# Doubles of moderate size

A double other than zero has a size, the number of binary places up to its leading digit. As long as
sizes stay far from where doubles end, arithmetic on them neither overflows nor loses bits below the
least exponent: rounding keeps a full mantissa (`sized_roundWithAccuracy`), so the sizes of a
difference, a product and a quotient are bounded by the sizes that they are computed from.
-/
set_option autoImplicit false

namespace Mathpad.Binary64

open Float.Model
open Float.Model.UnpackedFloat

/-! ## Shifting -/

/-- Shifting to the left adds to the number of digits behind the leading one. -/
theorem log2_shiftLeft {m : Nat} (hm : 0 < m) (k : Nat) : (m <<< k).log2 = m.log2 + k := by
  rw [Nat.shiftLeft_eq, Nat.log2_eq_iff (by positivity), pow_add, pow_add, pow_add]
  have hlow := Nat.log2_self_le hm.ne'
  have hhigh := @Nat.lt_log2_self m
  rw [pow_succ] at hhigh
  constructor
  · gcongr
  · rw [pow_one, Nat.mul_right_comm]
    gcongr

theorem ne_zero_of_log2_pos {m : Nat} (h : 0 < m.log2) : m ≠ 0 := by
  rintro rfl
  exact absurd h (by decide)

/-- Dropping digits at the end takes from the number of digits behind the leading one. -/
theorem log2_div_pow {m k : Nat} (hm : m ≠ 0) (hk : k ≤ m.log2) :
    (m / 2 ^ k).log2 = m.log2 - k := by
  obtain ⟨j, hj⟩ := Nat.exists_eq_add_of_le hk
  have hlow := Nat.log2_self_le hm
  have hhigh := @Nat.lt_log2_self m
  rw [hj, Nat.add_sub_cancel_left]
  rw [hj, pow_add] at hlow
  rw [hj, Nat.add_assoc, pow_add] at hhigh
  have hdiv : 2 ^ j ≤ m / 2 ^ k := by
    rwa [Nat.le_div_iff_mul_le (by positivity), Nat.mul_comm]
  have hpos : 0 < 2 ^ j := by positivity
  rw [Nat.log2_eq_iff (by omega)]
  exact ⟨hdiv, by rwa [Nat.div_lt_iff_lt_mul (by positivity), Nat.mul_comm]⟩

/-- Shifting an extended mantissa drops digits; what they were is kept beside it. -/
theorem mantissa_shiftRight (em : ExtendedMantissa) (k : Nat) :
    (em >>> k).mantissa = em.mantissa / 2 ^ k := by
  induction k with
  | zero => simp [HShiftRight.hShiftRight, Nat.repeat]
  | succ k ih =>
    show (ExtendedMantissa.shiftRightOne (em >>> k)).mantissa = _
    rw [ExtendedMantissa.shiftRightOne, ih, Nat.div_div_eq_div_mul, pow_succ]

/-- A mantissa of known accuracy starts with the digits it is given. -/
theorem mantissa_ofMantissaAndAccuracy (m : Nat) (a : Accuracy) :
    (ExtendedMantissa.ofMantissaAndAccuracy m a).mantissa = m := by
  cases a with
  | exact => rfl
  | inexact order => cases order <;> rfl

/-- Rounding to a whole mantissa adds one at most. -/
theorem roundedMantissa_bounds (em : ExtendedMantissa) :
    em.mantissa ≤ em.roundedMantissa ∧ em.roundedMantissa ≤ em.mantissa + 1 := by
  rw [ExtendedMantissa.roundedMantissa]
  cases em.accuracy with
  | exact => simp [Accuracy.roundToNearestEven]
  | inexact order =>
    cases order <;> simp only [Accuracy.roundToNearestEven] <;> omega

/-! ## Rounding -/

/-- As long as a number is not near the subnormal ones, its last digit stands 53 places behind the
first. -/
theorem targetExponent_binary64 {t : Int} (h : -1000 ≤ t) :
    Format.binary64.targetExponent t = t - 53 := by
  have htarget : Format.binary64.targetExponent t = max (t - 53) (-1074) := rfl
  omega

/-- A number other than zero with a full mantissa, whose size is at most `k` in both directions. -/
def Sized (k : Nat) : UnpackedFloat → Prop
  | .finite _ m e _ => m.log2 = 52 ∧ -(k : Int) ≤ e + 53 ∧ e + 53 ≤ k
  | _ => False

instance (k : Nat) (u : UnpackedFloat) : Decidable (Sized k u) :=
  match u with
  | .finite .. => inferInstanceAs (Decidable (_ ∧ _ ∧ _))
  | .zero _ | .infinity _ | .notANumber => inferInstanceAs (Decidable False)

theorem Sized.mono {k l : Nat} (h : k ≤ l) {u : UnpackedFloat} (hu : Sized k u) : Sized l u := by
  cases u with
  | finite s m e hm => exact ⟨hu.1, by have := hu.2.1; omega, by have := hu.2.2; omega⟩
  | _ => exact hu.elim

/-- A finite number has a size if its mantissa is full and its exponent, counted from the front of
the mantissa, is at most the size in both directions. -/
theorem sized_finite {s : Sign} {m : Nat} {e : Int} {hm : 0 < m} {k : Nat} :
    Sized k (.finite s m e hm) ↔ m.log2 = 52 ∧ -(k : Int) ≤ e + 53 ∧ e + 53 ≤ k := Iff.rfl

/-- The shift to the exponent that a format wants, where the length of the shift is known. -/
theorem shiftToTargetExponent_eq {spec : Format} {m : Nat} {e : Int} {a : Accuracy} {j : Nat}
    (h : (spec.targetExponent (totalExponent m e) - e).toNat = j) :
    shiftToTargetExponent spec m e a = (ExtendedMantissa.ofMantissaAndAccuracy m a >>> j, e + j) := by
  unfold shiftToTargetExponent shiftToExponent
  dsimp only
  rw [h]

/-- A mantissa with one bit too many is shifted once, which gives a full one. -/
theorem mantissa_shift_rounded {r : Nat} {e : Int} (hlow : 2 ^ 52 ≤ r) (hhigh : r ≤ 2 ^ 53)
    (he : -1000 ≤ e + 53) :
    ∃ i : Nat, i ≤ 1 ∧ (Format.binary64.targetExponent (totalExponent r e) - e).toNat = i ∧
      (ExtendedMantissa.ofMantissaAndAccuracy r .exact >>> i).mantissa.log2 = 52 := by
  rcases Nat.lt_or_ge r (2 ^ 53) with hlt | hfull
  · have hlog : r.log2 = 52 := (Nat.log2_eq_iff (by omega)).mpr ⟨hlow, hlt⟩
    refine ⟨0, by omega, ?_, ?_⟩
    · rw [totalExponent, hlog, targetExponent_binary64 (by push_cast; omega)]
      push_cast
      omega
    · rwa [mantissa_shiftRight, mantissa_ofMantissaAndAccuracy, pow_zero, Nat.div_one]
  · obtain rfl : r = 2 ^ 53 := by omega
    refine ⟨1, le_rfl, ?_, ?_⟩
    · rw [totalExponent, Nat.log2_two_pow, targetExponent_binary64 (by push_cast; omega)]
      push_cast
      omega
    · rw [mantissa_shiftRight, mantissa_ofMantissaAndAccuracy]
      decide

/-- Rounding a mantissa that has all its bits gives a full one, and the size grows by one at most. -/
theorem sized_roundWithAccuracy (s : Sign) {m : Nat} {e : Int} (a : Accuracy) {k : Nat}
    (hm : 52 ≤ m.log2) (hlow : -(k : Int) ≤ totalExponent m e) (hhigh : totalExponent m e ≤ k)
    (hk : k ≤ 999) : Sized (k + 1) (roundWithAccuracy Format.binary64 s m e a) := by
  obtain ⟨j, hj⟩ := Nat.exists_eq_add_of_le hm
  have htotal : totalExponent m e = e + j + 53 := by
    rw [totalExponent, hj]
    push_cast
    omega
  rw [htotal] at hlow hhigh
  have hshift : (Format.binary64.targetExponent (totalExponent m e) - e).toNat = j := by
    rw [targetExponent_binary64 (by omega), htotal]
    omega
  have hne : m ≠ 0 := ne_zero_of_log2_pos (by omega)
  unfold roundWithAccuracy
  rw [shiftToTargetExponent_eq hshift]
  dsimp only
  obtain ⟨em, hem⟩ : ∃ em, em = ExtendedMantissa.ofMantissaAndAccuracy m a >>> j := ⟨_, rfl⟩
  rw [← hem]
  have hmantissa : em.mantissa.log2 = 52 := by
    rw [hem, mantissa_shiftRight, mantissa_ofMantissaAndAccuracy, log2_div_pow hne (by omega), hj,
      Nat.add_sub_cancel]
  obtain ⟨hge, hle⟩ := roundedMantissa_bounds em
  have hpos : em.mantissa ≠ 0 := ne_zero_of_log2_pos (by omega)
  obtain ⟨hge', hlt'⟩ := (Nat.log2_eq_iff hpos).mp hmantissa
  -- only a mantissa of ones can be rounded up to one bit more, which is shifted out again
  obtain ⟨i, hi, hagain, hfull⟩ := mantissa_shift_rounded (r := em.roundedMantissa) (e := e + j)
    (by omega) (by omega) (by omega)
  rw [shiftToTargetExponent_eq hagain]
  dsimp only
  rw [dif_neg (ne_zero_of_log2_pos (by omega)), sized_finite]
  exact ⟨hfull, by push_cast; omega, by push_cast; omega⟩

/-- Rounding a fraction with any number of bits, since bits are added where some are missing. -/
theorem sized_round (s : Sign) {m : Nat} (hm : 0 < m) {e : Int} {k : Nat}
    (hlow : -(k : Int) ≤ totalExponent m e) (hhigh : totalExponent m e ≤ k) (hk : k ≤ 999) :
    Sized (k + 1) (UnpackedFloat.round Format.binary64 s m e) := by
  have htarget := targetExponent_binary64 (t := totalExponent m e) (by omega)
  unfold UnpackedFloat.round decreaseExponent
  dsimp only
  rw [htarget]
  obtain ⟨j, hj⟩ : ∃ j, j = (e - (totalExponent m e - 53)).toNat := ⟨_, rfl⟩
  rw [← hj]
  have htotal : totalExponent (m <<< j) (e - j) = totalExponent m e := by
    rw [totalExponent, totalExponent, log2_shiftLeft hm]
    push_cast
    omega
  refine sized_roundWithAccuracy s .exact ?_ (htotal ▸ hlow) (htotal ▸ hhigh) hk
  rw [log2_shiftLeft hm]
  rw [totalExponent] at hj
  omega

/-! ## Moderate numbers -/

/-- Zero, or a number of a size. -/
def Moderate (k : Nat) (u : UnpackedFloat) : Prop := (∃ s, u = .zero s) ∨ Sized k u

instance (k : Nat) (u : UnpackedFloat) : Decidable (Moderate k u) :=
  match u with
  | .zero s => .isTrue (.inl ⟨s, rfl⟩)
  | .finite s m e hm => decidable_of_iff (Sized k (.finite s m e hm))
      (or_iff_right (by rintro ⟨_, ⟨⟩⟩)).symm
  | .infinity _ | .notANumber => .isFalse (by rintro (⟨_, ⟨⟩⟩ | h); exact h)

theorem Sized.moderate {k : Nat} {u : UnpackedFloat} (h : Sized k u) : Moderate k u := .inr h

/-- The size of a mantissa below a power of two. -/
theorem log2_le_of_lt {n k : Nat} (h : n < 2 ^ (k + 1)) : n.log2 ≤ k := by
  by_cases hn : n = 0
  · rw [hn]
    exact Nat.zero_le k
  · exact Nat.lt_succ_iff.mp ((Nat.log2_lt hn).mpr h)

/-- The mantissa of a number of a size has all 53 digits. -/
theorem Sized.bounds {s : Sign} {m : Nat} {e : Int} {hm : 0 < m} {k : Nat}
    (h : Sized k (.finite s m e hm)) : 2 ^ 52 ≤ m ∧ m < 2 ^ 53 :=
  (Nat.log2_eq_iff hm.ne').mp h.1

/-- Rounding moves the leading digit by at most one place, so the rounded number is of the next
size. -/
theorem sized_normalize {n e : Int} (z : Sign) {k : Nat} (hn : n ≠ 0)
    (hlow : -(k : Int) ≤ totalExponent n.natAbs e) (hhigh : totalExponent n.natAbs e ≤ k)
    (hk : k ≤ 999) : Sized (k + 1) (UnpackedFloat.normalize Format.binary64 n e z) := by
  unfold UnpackedFloat.normalize
  rcases lt_trichotomy n 0 with hneg | hzero | hpos
  · rw [Int.compare_eq_lt.mpr hneg]
    have habs : (-n).toNat = n.natAbs := by omega
    rw [← habs] at hlow hhigh
    exact sized_round .negative (by omega) hlow hhigh hk
  · exact absurd hzero hn
  · rw [Int.compare_eq_gt.mpr hpos]
    have habs : n.toNat = n.natAbs := by omega
    rw [← habs] at hlow hhigh
    exact sized_round .positive (by omega) hlow hhigh hk

/-! ## Arithmetic -/

theorem Sign.natAbs_apply (s : Sign) (n : Nat) : (s.apply n).natAbs = n := by
  cases s <;> simp [Sign.apply]

/-- A mantissa that is shifted to align it with another one stays below the bound that both have. -/
theorem shiftLeft_lt {m : Nat} (h : m < 2 ^ 53) {a b : Nat} (hab : a ≤ b) :
    m <<< a < 2 ^ (53 + b) := by
  rw [Nat.shiftLeft_eq, pow_add]
  calc m * 2 ^ a < 2 ^ 53 * 2 ^ a := by gcongr
    _ ≤ 2 ^ 53 * 2 ^ b := by gcongr; omega

/-- Two numbers are equal if their mantissas are, measured at the smaller of the two exponents. -/
theorem compare_eq_of_sub_eq_zero {s s' : Sign} {m m' : Nat} {e e' : Int} {hm : 0 < m} {hm' : 0 < m'}
    {k : Nat} (h : Sized k (.finite s m e hm)) (h' : Sized k (.finite s' m' e' hm'))
    (hzero : s.apply ((m <<< (e - min e e').toNat : Nat) : Int) -
      s'.apply ((m' <<< (e' - min e e').toNat : Nat) : Int) = 0) :
    UnpackedFloat.compare (.finite s m e hm) (.finite s' m' e' hm') = some .eq := by
  obtain ⟨a, ha⟩ : ∃ a, a = (e - min e e').toNat := ⟨_, rfl⟩
  obtain ⟨b, hb⟩ : ∃ b, b = (e' - min e e').toNat := ⟨_, rfl⟩
  rw [← ha, ← hb, sub_eq_zero] at hzero
  have habs := congrArg Int.natAbs hzero
  rw [Sign.natAbs_apply, Sign.natAbs_apply] at habs
  -- full mantissas can be equal at one exponent only, so neither of them was shifted
  have hlog := congrArg Nat.log2 habs
  rw [log2_shiftLeft hm, log2_shiftLeft hm', h.1, h'.1] at hlog
  obtain rfl : a = 0 := by omega
  obtain rfl : b = 0 := by omega
  obtain rfl : e = e' := by omega
  obtain rfl : m = m' := habs
  have hpos : (0 : Int) < m := by exact_mod_cast hm
  have hone : ∀ t : Sign, t.apply ((m <<< 0 : Nat) : Int) = t.apply (m : Int) := fun _ => rfl
  rw [hone, hone] at hzero
  have hsame : s = s' := by
    cases s <;> cases s' <;> simp only [Sign.apply] at hzero <;> first | rfl | omega
  subst hsame
  unfold UnpackedFloat.compare
  cases s <;> simp [Ordering.then]

/-- The difference of two doubles is zero or no smaller than the last place of the smaller one, and
zero only if the two compare equal. -/
theorem sub_sized {u v : UnpackedFloat} {k : Nat} (hu : Sized k u) (hv : Sized k v) (hk : k ≤ 900) :
    Moderate (k + 53) (UnpackedFloat.sub Format.binary64 u v) ∧
      (UnpackedFloat.compare u v ≠ some .eq →
        Sized (k + 53) (UnpackedFloat.sub Format.binary64 u v)) := by
  cases u with
  | finite s m e hm =>
    cases v with
    | finite s' m' e' hm' =>
      unfold UnpackedFloat.sub decreaseExponent
      dsimp only
      obtain ⟨n, hn⟩ : ∃ n, n = s.apply ((m <<< (e - min e e').toNat : Nat) : Int) -
        s'.apply ((m' <<< (e' - min e e').toNat : Nat) : Int) := ⟨_, rfl⟩
      rw [← hn]
      by_cases hzero : n = 0
      · have hcompare := compare_eq_of_sub_eq_zero hu hv (hn.symm.trans hzero)
        refine ⟨.inl ⟨.positive, ?_⟩, fun hne => absurd hcompare hne⟩
        rw [hzero]
        rfl
      · -- the difference is below the sum of the two, and a multiple of the last bit
        obtain ⟨hlow, hhigh⟩ := hu.2
        obtain ⟨hlow', hhigh'⟩ := hv.2
        obtain ⟨c, hc⟩ : ∃ c, c = (max e e' - min e e').toNat := ⟨_, rfl⟩
        have hfirst := shiftLeft_lt hu.bounds.2 (a := (e - min e e').toNat) (b := c) (by omega)
        have hsecond := shiftLeft_lt hv.bounds.2 (a := (e' - min e e').toNat) (b := c) (by omega)
        have habs : n.natAbs < 2 ^ (53 + c + 1) := by
          have htriangle := Int.natAbs_sub_le (s.apply ((m <<< (e - min e e').toNat : Nat) : Int))
            (s'.apply ((m' <<< (e' - min e e').toNat : Nat) : Int))
          rw [← hn, Sign.natAbs_apply, Sign.natAbs_apply] at htriangle
          rw [pow_succ]
          omega
        have hlog := log2_le_of_lt habs
        have hsized : Sized (k + 53) (UnpackedFloat.normalize Format.binary64 n (min e e') .positive) :=
          sized_normalize (k := k + 52) .positive hzero (by rw [totalExponent]; push_cast; omega)
            (by rw [totalExponent]; push_cast; omega) (by omega)
        exact ⟨hsized.moderate, fun _ => hsized⟩
    | _ => exact hv.elim
  | _ => exact hu.elim

/-- The same of doubles that may be zero. -/
theorem sub_moderate {u v : UnpackedFloat} {k : Nat} (hu : Moderate k u) (hv : Moderate k v)
    (hk : k ≤ 900) :
    Moderate (k + 53) (UnpackedFloat.sub Format.binary64 u v) ∧
      (UnpackedFloat.compare u v ≠ some .eq →
        Sized (k + 53) (UnpackedFloat.sub Format.binary64 u v)) := by
  rcases hu with ⟨s, rfl⟩ | hu <;> rcases hv with ⟨s', rfl⟩ | hv
  · refine ⟨.inl ?_, fun h => absurd rfl h⟩
    cases s <;> cases s' <;> exact ⟨_, rfl⟩
  · cases v with
    | finite s' m e hm =>
      have hsized : Sized (k + 53) (.finite (-s') m e hm) := Sized.mono (by omega) hv
      exact ⟨hsized.moderate, fun _ => hsized⟩
    | _ => exact hv.elim
  · cases u with
    | finite s m e hm =>
      have hsized : Sized (k + 53) (.finite s m e hm) := Sized.mono (by omega) hu
      exact ⟨hsized.moderate, fun _ => hsized⟩
    | _ => exact hu.elim
  · exact sub_sized hu hv hk

/-- A product of two mantissas that have all the bits together. -/
theorem sized_mul {s s' : Sign} {m m' : Nat} {e e' : Int} {hm : 0 < m} {hm' : 0 < m'} {k : Nat}
    (hfull : 52 ≤ (m * m').log2) (hlow : -(k : Int) ≤ totalExponent (m * m') (e + e'))
    (hhigh : totalExponent (m * m') (e + e') ≤ k) (hk : k ≤ 999) :
    Sized (k + 1) (UnpackedFloat.mul Format.binary64 (.finite s m e hm) (.finite s' m' e' hm')) :=
  sized_roundWithAccuracy _ .exact hfull hlow hhigh hk

/-- The size of a product is the sum of the sizes, or one less. -/
theorem log2_mul {m m' : Nat} (hm : 0 < m) (hm' : 0 < m') :
    m.log2 + m'.log2 ≤ (m * m').log2 ∧ (m * m').log2 ≤ m.log2 + m'.log2 + 1 := by
  have hpos : 0 < m * m' := Nat.mul_pos hm hm'
  have hle := Nat.mul_le_mul (Nat.log2_self_le hm.ne') (Nat.log2_self_le hm'.ne')
  have hlt := Nat.mul_lt_mul'' (@Nat.lt_log2_self m) (@Nat.lt_log2_self m')
  rw [← pow_add] at hle hlt
  refine ⟨(Nat.le_log2 hpos.ne').mpr hle, log2_le_of_lt (lt_of_lt_of_eq hlt ?_)⟩
  congr 1
  omega

/-- Exponents add up in a product, and rounding adds at most one. -/
theorem mul_moderate {u v : UnpackedFloat} {k l : Nat} (hu : Moderate k u) (hv : Moderate l v)
    (hkl : k + l ≤ 900) : Moderate (k + l + 2) (UnpackedFloat.mul Format.binary64 u v) := by
  rcases hu with ⟨s, rfl⟩ | hu <;> rcases hv with ⟨s', rfl⟩ | hv
  · exact .inl ⟨_, rfl⟩
  · cases v with
    | finite s' m e hm => exact .inl ⟨_, rfl⟩
    | _ => exact hv.elim
  · cases u with
    | finite s m e hm => exact .inl ⟨_, rfl⟩
    | _ => exact hu.elim
  cases u with
  | finite s m e hm =>
    cases v with
    | finite s' m' e' hm' =>
      obtain ⟨hlog, hlow, hhigh⟩ := hu
      obtain ⟨hlog', hlow', hhigh'⟩ := hv
      obtain ⟨hge, hle⟩ := log2_mul hm hm'
      rw [hlog, hlog'] at hge hle
      exact (sized_mul (k := k + l + 1) (by omega) (by rw [totalExponent]; push_cast; omega)
        (by rw [totalExponent]; push_cast; omega) (by omega)).moderate
    | _ => exact hv.elim
  | _ => exact hu.elim

/-- The quotient of two mantissas, of which the first has been shifted to have more bits. -/
theorem log2_div {m m' : Nat} (hm' : 0 < m') (h : m'.log2 < m.log2) :
    m.log2 ≤ (m / m').log2 + m'.log2 + 1 ∧ (m / m').log2 + m'.log2 ≤ m.log2 := by
  obtain ⟨j, hj⟩ := Nat.exists_eq_add_of_lt h
  have hm : m ≠ 0 := ne_zero_of_log2_pos (by omega)
  have hlow := Nat.log2_self_le hm
  have hhigh := @Nat.lt_log2_self m
  have hlow' := Nat.log2_self_le hm'.ne'
  have hhigh' := @Nat.lt_log2_self m'
  have hge : 2 ^ j ≤ m / m' := by
    rw [Nat.le_div_iff_mul_le hm']
    calc 2 ^ j * m' ≤ 2 ^ j * 2 ^ (m'.log2 + 1) := by gcongr
      _ = 2 ^ m.log2 := by rw [← pow_add, hj]; congr 1; omega
      _ ≤ m := hlow
  have hlt : m / m' < 2 ^ (j + 2) := by
    rw [Nat.div_lt_iff_lt_mul hm']
    calc m < 2 ^ (m.log2 + 1) := hhigh
      _ = 2 ^ (j + 2) * 2 ^ m'.log2 := by rw [← pow_add, hj]; congr 1; omega
      _ ≤ 2 ^ (j + 2) * m' := by gcongr
  have hpos : 0 < 2 ^ j := by positivity
  have hfirst := (Nat.le_log2 (by omega)).mpr hge
  have hsecond := log2_le_of_lt hlt
  omega

/-- Enough bits are added before dividing, so that the quotient has a full mantissa. -/
theorem sized_div {s s' : Sign} {m m' : Nat} {e e' : Int} {hm : 0 < m} {hm' : 0 < m'} {k : Nat}
    (hlow : -(k : Int) ≤ totalExponent m e - totalExponent m' e')
    (hhigh : totalExponent m e - totalExponent m' e' ≤ k) (hk : k ≤ 900) :
    Sized (k + 2) (UnpackedFloat.div Format.binary64 (.finite s m e hm) (.finite s' m' e' hm')) := by
  unfold UnpackedFloat.div divCore
  dsimp only
  rw [targetExponent_binary64 (by omega)]
  obtain ⟨t, ht⟩ : ∃ t, t = min (e - e') (totalExponent m e - totalExponent m' e' - 53) := ⟨_, rfl⟩
  rw [← ht]
  rw [totalExponent, totalExponent] at hlow hhigh ht
  have hlog := log2_shiftLeft hm (e - e' - t).toNat
  obtain ⟨hge, hle⟩ := log2_div (m := m <<< (e - e' - t).toNat) hm' (by omega)
  exact sized_roundWithAccuracy (k := k + 1) _ _ (by omega) (by rw [totalExponent]; push_cast; omega)
    (by rw [totalExponent]; push_cast; omega) (by omega)

/-- Exponents are subtracted in a quotient, and rounding adds at most one. -/
theorem div_moderate {u v : UnpackedFloat} {k l : Nat} (hu : Moderate k u) (hv : Sized l v)
    (hkl : k + l ≤ 900) : Moderate (k + l + 2) (UnpackedFloat.div Format.binary64 u v) := by
  cases v with
  | finite s' m' e' hm' =>
    rcases hu with ⟨s, rfl⟩ | hu
    · exact .inl ⟨_, rfl⟩
    cases u with
    | finite s m e hm =>
      obtain ⟨hlog, hlow, hhigh⟩ := hu
      obtain ⟨hlog', hlow', hhigh'⟩ := hv
      exact (sized_div (k := k + l) (by rw [totalExponent, totalExponent]; push_cast; omega)
        (by rw [totalExponent, totalExponent]; push_cast; omega) hkl).moderate
    | _ => exact hu.elim
  | _ => exact hv.elim

/-! ## Packing -/

/-- The sign is read back from the bits that were packed. -/
theorem unpackSign_packComponents {spec : Format} (s : Sign) (e : BitVec spec.exponentBits)
    (m : BitVec spec.mantissaBitsWithoutImplicit) :
    Sign.ofBitVec (unpackSign (packComponents spec s e m)) = s := by
  have hsign : unpackSign (packComponents spec s e m) = s.toBitVec := by
    refine BitVec.eq_of_getLsbD_eq fun i hi => ?_
    obtain rfl : i = 0 := by omega
    unfold unpackSign packComponents
    simp [BitVec.getLsbD_append, BitVec.getElem_append]
  rw [hsign]
  cases s <;> rfl

/-- A full mantissa is found again behind the bit that is not written. -/
theorem toNat_implicit_append {m : Nat} (hlow : 2 ^ 52 ≤ m) (hhigh : m < 2 ^ 53) :
    (1#1 ++ BitVec.ofNat 52 m).toNat = m := by
  rw [BitVec.toNat_append, ← Nat.shiftLeft_add_eq_or_of_lt (BitVec.isLt _), BitVec.toNat_ofNat]
  simp only [BitVec.toNat_ofNat, Nat.shiftLeft_eq]
  omega

/-- Two finite numbers are the same if their parts are, whatever proves that the mantissas are not
zero. -/
theorem finite_congr {s s' : Sign} {m m' : Nat} {e e' : Int} {hm : 0 < m} {hm' : 0 < m'}
    (hs : s = s') (hmantissa : m = m') (he : e = e') :
    UnpackedFloat.finite s m e hm = .finite s' m' e' hm' := by
  subst hs hmantissa he
  rfl

/-- The bits of a normal number give back its mantissa and its exponent. -/
theorem unpack_packComponents (spec : Format) (s : Sign) (e : BitVec spec.exponentBits)
    (m : BitVec spec.mantissaBitsWithoutImplicit) {n : Nat} (hn : 0 < n)
    (hinfinite : e ≠ -1#(spec.exponentBits)) (hsubnormal : e ≠ 0#(spec.exponentBits))
    (hmantissa : (1#1 ++ m).toNat = n) : UnpackedFloat.unpack spec (packComponents spec s e m) =
      .finite s n (e.toNat - (spec.exponentBias + spec.mantissaBitsWithoutImplicit)) hn := by
  have hexponent : unpackExponent (packComponents spec s e m) = e := unpackExponent_packComponents
  unfold UnpackedFloat.unpack
  dsimp only
  rw [if_neg (by rwa [hexponent]), if_neg (by rwa [hexponent])]
  refine finite_congr (unpackSign_packComponents s e m) ?_ (by rw [hexponent])
  rw [unpackMantissa_packComponents, hmantissa]

/-- A moderate number is written without loss. -/
theorem unpack_pack {u : UnpackedFloat} {k : Nat} (h : Moderate k u) (hk : k ≤ 1000) :
    UnpackedFloat.unpack Format.binary64 (UnpackedFloat.pack Format.binary64 u) = u := by
  rcases h with ⟨s, rfl⟩ | h
  · cases s <;> rfl
  cases u with
  | finite s m e hm =>
    obtain ⟨hmlow, hmhigh⟩ := h.bounds
    obtain ⟨hlog, hlow, hhigh⟩ := h
    -- the exponent with its offset is between the two that stand for something else
    obtain ⟨b, hb⟩ : ∃ b, b = (e + 1023 + 52).toNat := ⟨_, rfl⟩
    have hfield : (BitVec.ofNat 11 b).toNat = b := by
      rw [BitVec.toNat_ofNat, Nat.mod_eq_of_lt (by omega)]
    have hinfinite : BitVec.ofNat 11 b ≠ -1#11 := by
      intro heq
      have hnat := congrArg BitVec.toNat heq
      rw [hfield] at hnat
      exact absurd (hnat.trans (by decide : _ = 2047)) (by omega)
    have hsubnormal : BitVec.ofNat 11 b ≠ 0#11 := by
      intro heq
      have hnat := congrArg BitVec.toNat heq
      rw [hfield] at hnat
      exact absurd (hnat.trans (by decide : _ = 0)) (by omega)
    have hpack : UnpackedFloat.pack Format.binary64 (.finite s m e hm) =
        packComponents Format.binary64 s (BitVec.ofNat 11 b) (BitVec.ofNat 52 m) := by
      show (if 2 ^ 11 ≤ (e + 1023 + 52).toNat + 1 then _
        else if m.log2 + 1 = 53 then _ else _) = _
      rw [if_neg (by omega), if_pos (by omega), hb]
      rfl
    have hunpack := unpack_packComponents Format.binary64 s (BitVec.ofNat 11 b) (BitVec.ofNat 52 m)
      hm hinfinite hsubnormal (toNat_implicit_append hmlow hmhigh)
    rw [hpack, hunpack]
    refine finite_congr rfl rfl ?_
    show ((BitVec.ofNat 11 b).toNat : Int) - (1023 + 52) = e
    rw [hfield]
    omega
  | _ => exact h.elim

/-! ## Doubles -/

/-- A double other than zero of a size. -/
def IsSized (k : Nat) (x : Float) : Prop := Sized k x.toModel.unpack

/-- A double that is zero or has a size. -/
def IsModerate (k : Nat) (x : Float) : Prop := Moderate k x.toModel.unpack

instance (k : Nat) (x : Float) : Decidable (IsModerate k x) :=
  inferInstanceAs (Decidable (Moderate k x.toModel.unpack))

instance (k : Nat) (x : Float) : Decidable (IsSized k x) :=
  inferInstanceAs (Decidable (Sized k x.toModel.unpack))

variable {x y : Float} {k l : Nat}

theorem IsSized.isModerate (h : IsSized k x) : IsModerate k x := .inr h

theorem IsSized.mono (h : IsSized k x) (hkl : k ≤ l) : IsSized l x := Sized.mono hkl h

theorem IsModerate.mono (h : IsModerate k x) (hkl : k ≤ l) : IsModerate l x :=
  h.imp_right (Sized.mono hkl)

/-- What a moderate number is written as reads as it. -/
theorem isModerate_ofModel_pack {u : UnpackedFloat} (h : Moderate k u) (hk : k ≤ 1000) :
    IsModerate k (.ofModel (.pack u)) := by
  rwa [IsModerate, show (Float.ofModel (.pack u)).toModel.unpack = u from unpack_pack h hk]

/-- Packing a number of a size into a double loses nothing. -/
theorem isSized_ofModel_pack {u : UnpackedFloat} (h : Sized k u) (hk : k ≤ 1000) :
    IsSized k (.ofModel (.pack u)) := by
  rwa [IsSized, show (Float.ofModel (.pack u)).toModel.unpack = u from unpack_pack h.moderate hk]

/-- A double of moderate size is neither infinite nor no number. -/
theorem IsModerate.finite (h : IsModerate k x) : x.isNaN = false ∧ x.isInf = false := by
  show x.toModel.unpack.isNaN = false ∧ x.toModel.unpack.isInf = false
  unfold IsModerate at h
  generalize x.toModel.unpack = u at h
  rcases h with ⟨s, rfl⟩ | h
  · exact ⟨rfl, rfl⟩
  · cases u with
    | finite => exact ⟨rfl, rfl⟩
    | _ => exact h.elim

theorem IsModerate.neg (h : IsModerate k x) (hk : k ≤ 1000) : IsModerate k (-x) := by
  refine isModerate_ofModel_pack (u := x.toModel.unpack.neg) ?_ hk
  unfold IsModerate at h
  generalize x.toModel.unpack = u at h
  rcases h with ⟨s, rfl⟩ | h
  · exact .inl ⟨_, rfl⟩
  · cases u with
    | finite => exact .inr h
    | _ => exact h.elim

/-- The difference of two doubles of moderate size is of moderate size. -/
theorem IsModerate.sub (hx : IsModerate k x) (hy : IsModerate k y) (hk : k ≤ 900) :
    IsModerate (k + 53) (x - y) :=
  isModerate_ofModel_pack (sub_moderate hx hy hk).1 (by omega)

/-- Doubles that differ have a difference. -/
theorem IsModerate.sub_isSized (hx : IsModerate k x) (hy : IsModerate k y) (hk : k ≤ 900)
    (hne : (x != y) = true) : IsSized (k + 53) (x - y) := by
  refine isSized_ofModel_pack ((sub_moderate hx hy hk).2 fun heq => ?_) (by omega)
  have hbeq : (x == y) = (UnpackedFloat.compare x.toModel.unpack y.toModel.unpack == some .eq) := rfl
  rw [bne, hbeq, heq] at hne
  exact absurd hne (by decide)

/-- The product of two doubles of moderate size is of moderate size. -/
theorem IsModerate.mul (hx : IsModerate k x) (hy : IsModerate l y) (hkl : k + l ≤ 900) :
    IsModerate (k + l + 2) (x * y) :=
  isModerate_ofModel_pack (mul_moderate hx hy hkl) (by omega)

/-- The quotient of two doubles of moderate size is of moderate size; the divisor must not be zero.
-/
theorem IsModerate.div (hx : IsModerate k x) (hy : IsSized l y) (hkl : k + l ≤ 900) :
    IsModerate (k + l + 2) (x / y) :=
  isModerate_ofModel_pack (div_moderate hx hy hkl) (by omega)

end Mathpad.Binary64
