import Mathlib.Tactic.TFAE
import Mathpad.Proofs.HalfEven
import Mathpad.Proofs.Representable

/-!
# Differences

A number is subtracted by adding the number with the other sign. Where changing the sign loses
nothing the difference is the true one: exact for two fractions, and otherwise the difference of
the decimals, rounded once. It loses something in two places only. The least word has no opposite
among the words, so a fraction with that numerator overflows before anything is added to it; and a
decimal with one digit more than the precision has is rounded when its sign changes, and once more
in the sum.
-/
set_option autoImplicit false

namespace Mathpad

namespace Decimal

/-! ## Sums and signs -/

theorem value_add (a b : Decimal) : (a.add b).value = a.value + b.value := by
  obtain ⟨e, he⟩ : ∃ e, e = min a.exponent b.exponent := ⟨_, rfl⟩
  have ha : e ≤ a.exponent := he ▸ min_le_left _ _
  have hb : e ≤ b.exponent := he ▸ min_le_right _ _
  have hsigned : (a.add b).signedDigits = a.units e + b.units e := by
    unfold add signedDigits
    simp only [← he]
    generalize a.units e + b.units e = total
    by_cases hzero : total = 0
    · simp [hzero]
    · rw [if_neg hzero]
      by_cases hneg : total < 0
      · rw [if_pos (decide_eq_true hneg)]
        omega
      · rw [if_neg (by simpa using hneg)]
        omega
  have hexp : (a.add b).exponent = e := he.symm
  rw [value, hsigned, hexp, value_eq_units ha, value_eq_units hb]
  push_cast
  ring

theorem value_flip (d : Decimal) : d.flip.value = -d.value := by
  obtain ⟨negative, digits, exponent⟩ := d
  cases negative <;> simp [flip, value_eq]

theorem value_sub (a b : Decimal) : (a.sub b).value = a.value - b.value := by
  rw [sub, value_add, value_flip, sub_eq_add_neg]

/-- Changing the sign rounds. -/
theorem value_negate (v : Decimal) : (v.negate precision).value = -toDigits precision v.value := by
  unfold negate
  by_cases hzero : v.digits = 0
  · have hvalue : v.value = 0 := by rw [← abs_eq_zero, abs_value, hzero]; simp
    rw [if_pos hzero, value_eq, hzero, hvalue, toDigits_zero]
    simp
  · rw [if_neg hzero, value_round_eq (by decide), value_flip, toDigits_neg]

/-- Rounding the opposite only takes digits away at the end. -/
theorem exponent_le_negate (v : Decimal) : v.exponent ≤ (v.negate precision).exponent := by
  unfold negate
  split
  · exact le_refl _
  · exact exponent_le_round precision v.flip

/-- Rounding makes no zero out of anything else. -/
theorem value_eq_zero_of_toDigits {v : Decimal} (h : toDigits precision v.value = 0) :
    v.value = 0 := by
  rw [← value_round_eq (by decide), ← isZero_iff, isZero, beq_iff_eq] at h
  rw [← isZero_iff, isZero, beq_iff_eq]
  by_contra hdigits
  exact digits_round_ne_zero (by decide) hdigits h

end Decimal

namespace Number

open Decimal

/-- The number `q` as a decimal after it was rounded once, or an overflow if that is too large. -/
def RoundsOnce (q : ℚ) (a : Accuracy) (o : Outcome Number) : Prop :=
  if |toDigits precision q| ≤ maxMagnitude then
    ∃ d, o = .ok (.decimal d a) ∧ d.value = toDigits precision q
  else o = failMaths .overflow

/-- The difference of two numbers: exact for fractions, and otherwise that of the decimals they are,
rounded once. -/
def IsDifference (x y : Number) (o : Outcome Number) : Prop :=
  match x, y with
  | .ratio _ _, .ratio _ _ => o = checked (x.value - y.value)
  | _, _ => ∃ v w, x.toDecimal = .ok v ∧ y.toDecimal = .ok w ∧
      RoundsOnce (v.value - w.value) (x.accuracy.combine y.accuracy) o

/-- Changing the sign loses nothing: the numerator is not the least word, and a decimal has no more
digits than the precision. -/
def Reversible : Number → Prop
  | .ratio n _ => n ≠ -maxWord - 1
  | .decimal v _ => toDigits precision v.value = v.value

/-- The sign of a fraction can be changed if and only if its opposite fits. -/
theorem reversible_ofRat {q : ℚ} (hq : Fits q) : (ofRat q).Reversible ↔ Fits (-q) := by
  obtain ⟨hnum, hden⟩ := hq
  unfold Fits
  rw [Rat.neg_num, Rat.neg_den]
  change q.num ≠ -maxWord - 1 ↔ isWord (-q.num) = true ∧ isWord q.den = true
  rw [and_iff_left hden]
  simp only [isWord, Bool.and_eq_true, decide_eq_true_iff] at hnum ⊢
  unfold maxWord at hnum ⊢
  omega

/-! ## Decimals among the two -/

/-- A number that can be represented is a decimal with no more places than there may be. -/
theorem Representable.exists_toDecimal {x : Number} (hx : x.Representable) :
    ∃ v, x.toDecimal = .ok v ∧ -(maxPlaces : Int) ≤ v.exponent := by
  cases hx.lowest with
  | ratio hq =>
    obtain ⟨v, hv⟩ := Number.exists_toDecimal hq
    exact ⟨v, hv, (toDecimal_inRange hv).places⟩
  | decimal v a => exact ⟨v, rfl, hx.places⟩

/-- What has the other sign without a loss is the decimal with the other sign. -/
theorem exists_neg {y : Number} (hy : y.Representable) (h : y.Reversible) :
    ∃ w z u, y.toDecimal = .ok w ∧ y.neg = .ok z ∧ z.toDecimal = .ok u ∧ u.value = -w.value ∧
      -(maxPlaces : Int) ≤ u.exponent ∧ z.accuracy = y.accuracy ∧ (y.IsDecimal → z.IsDecimal) := by
  cases hy.lowest with
  | @ratio q hq =>
    have hneg := (reversible_ofRat hq).mp h
    obtain ⟨w, hw⟩ := Number.exists_toDecimal hq
    obtain ⟨u, hu⟩ := Number.exists_toDecimal hneg
    refine ⟨w, ofRat (-q), u, hw, ?_, hu, ?_, (toDecimal_inRange hu).places, rfl, ?_⟩
    · rw [neg_ofRat_eq, checked_of_fits hneg]
    · rw [value_toDecimal hw, value_toDecimal hu, kept_neg]
    · rintro ⟨_, _, hdecimal⟩
      cases hdecimal
  | decimal v a =>
    have hvalue : (v.negate precision).value = -v.value := by
      rw [value_negate, show toDigits precision v.value = v.value from h]
    exact ⟨v, .decimal (v.negate precision) a, v.negate precision, rfl, rfl, rfl, hvalue,
      hy.places.trans (exponent_le_negate v), rfl, fun _ => ⟨_, _, rfl⟩⟩

/-- A sum with a decimal in it is rounded once. Neither part has more places than are permitted, so
none are taken away. -/
theorem add_roundsOnce {x y : Number} {v w : Decimal} (hx : x.toDecimal = .ok v)
    (hy : y.toDecimal = .ok w) (hv : -(maxPlaces : Int) ≤ v.exponent)
    (hw : -(maxPlaces : Int) ≤ w.exponent) (h : x.IsDecimal ∨ y.IsDecimal) :
    RoundsOnce (v.value + w.value) (x.accuracy.combine y.accuracy) (x.add y) := by
  have hadd : x.add y = (do
      let v ← x.toDecimal
      let w ← y.toDecimal
      return .decimal (← ((v.add w).round precision).fit) (x.accuracy.combine y.accuracy)) := by
    rcases h with ⟨_, _, rfl⟩ | ⟨_, _, rfl⟩
    · rfl
    · cases x <;> rfl
  have hplaces : -(maxPlaces : Int) ≤ (v.add w).exponent := le_min hv hw
  have hkept := kept_of_places hplaces
  rw [hadd, hx, hy, ok_bind, ok_bind, round_fit_eq, RoundsOnce, ← value_add, ← hkept]
  split
  · exact ⟨_, rfl, value_placed_round _⟩
  · rfl

/-- Where one of two numbers is a decimal, their difference is that of their decimal forms. -/
theorem isDifference_of_isDecimal {x y : Number} {o : Outcome Number} {v w : Decimal}
    (hx : x.toDecimal = .ok v) (hy : y.toDecimal = .ok w) (h : x.IsDecimal ∨ y.IsDecimal) :
    IsDifference x y o ↔ RoundsOnce (v.value - w.value) (x.accuracy.combine y.accuracy) o := by
  have hdifference : IsDifference x y o ↔ ∃ v w, x.toDecimal = .ok v ∧ y.toDecimal = .ok w ∧
      RoundsOnce (v.value - w.value) (x.accuracy.combine y.accuracy) o := by
    rcases h with ⟨_, _, rfl⟩ | ⟨_, _, rfl⟩
    · exact Iff.rfl
    · cases x <;> exact Iff.rfl
  rw [hdifference, hx, hy]
  constructor
  · rintro ⟨_, _, hv, hw, hrounds⟩
    obtain rfl := Except.ok.inj hv
    obtain rfl := Except.ok.inj hw
    exact hrounds
  · exact fun hrounds => ⟨v, w, rfl, rfl, hrounds⟩

/-! ## The difference -/

/-- Where the sign of the second number can be changed, subtracting gives the difference. -/
theorem sub_isDifference {x y : Number} (hx : x.Representable) (hy : y.Representable)
    (h : y.Reversible) : IsDifference x y (x.sub y) := by
  by_cases hmixed : x.IsDecimal ∨ y.IsDecimal
  · obtain ⟨v, hv, hvplaces⟩ := hx.exists_toDecimal
    obtain ⟨w, z, u, hw, hz, hu, hvalue, huplaces, haccuracy, hdecimal⟩ := exists_neg hy h
    rw [isDifference_of_isDecimal hv hw hmixed, sub, hz, ok_bind, ← haccuracy, sub_eq_add_neg,
      ← hvalue]
    exact add_roundsOnce hv hu hvplaces huplaces (hmixed.imp_right hdecimal)
  · cases hx.lowest with
    | decimal v a => exact absurd (.inl ⟨v, a, rfl⟩) hmixed
    | @ratio p hp =>
      cases hy.lowest with
      | decimal v a => exact absurd (.inr ⟨v, a, rfl⟩) hmixed
      | @ratio q hq =>
        change (ofRat p).sub (ofRat q) = checked ((ofRat p).value - (ofRat q).value)
        rw [sub, neg_ofRat_eq, checked_of_fits ((reversible_ofRat hq).mp h), ok_bind, add_ofRat_eq,
          value_ofRat, value_ofRat, sub_eq_add_neg]

/-- The difference of a number to itself is zero, if it is the true one. -/
theorem isZero_sub_self {y : Number} (hy : y.Representable) (h : IsDifference y y (y.sub y)) :
    ∃ z, y.sub y = .ok z ∧ z.isZero = true := by
  cases hy.lowest with
  | @ratio q hq =>
    refine ⟨ofRat 0, ?_, rfl⟩
    rw [show (ofRat q).sub (ofRat q) = checked ((ofRat q).value - (ofRat q).value) from h, sub_self]
    rfl
  | decimal v a =>
    rw [isDifference_of_isDecimal rfl rfl (.inl ⟨v, a, rfl⟩), RoundsOnce, sub_self, toDigits_zero,
      if_pos (by rw [abs_zero]; positivity)] at h
    obtain ⟨d, hd, hvalue⟩ := h
    exact ⟨_, hd, (isZero_iff d).mpr hvalue⟩

/-- The sign of a number can be changed if subtracting it from itself gives zero. -/
theorem reversible_of_sub_self {y z : Number} (hy : y.Representable) (h : y.sub y = .ok z)
    (hz : z.isZero = true) : y.Reversible := by
  cases hy.lowest with
  | @ratio q hq =>
    rw [reversible_ofRat hq]
    by_contra hfits
    rw [sub, neg_ofRat_eq, checked_of_not_fits hfits] at h
    cases h
  | decimal v a =>
    have hrounds := add_roundsOnce (x := .decimal v a) (y := .decimal (v.negate precision) a) rfl rfl
      hy.places (hy.places.trans (exponent_le_negate v)) (.inl ⟨v, a, rfl⟩)
    have hsub : (Number.decimal v a).add (.decimal (v.negate precision) a) = .ok z := h
    rw [hsub, RoundsOnce] at hrounds
    split at hrounds
    · obtain ⟨d, hd, hvalue⟩ := hrounds
      obtain rfl := Except.ok.inj hd
      rw [← value_add] at hvalue
      have hzero := value_eq_zero_of_toDigits (hvalue.symm.trans ((isZero_iff d).mp hz))
      rw [value_add, value_negate] at hzero
      exact (add_neg_eq_zero.mp hzero).symm
    · cases hrounds

/-- The difference is the true one whatever a number is subtracted from, exactly if subtracting it
from itself gives zero, and exactly if changing its sign loses nothing. -/
theorem sub_tfae {y : Number} (hy : y.Representable) :
    [∀ x, x.Representable → IsDifference x y (x.sub y),
      ∃ z, y.sub y = .ok z ∧ z.isZero = true,
      y.Reversible].TFAE := by
  tfae_have 1 → 2 := fun h => isZero_sub_self hy (h y hy)
  tfae_have 2 → 3 := fun ⟨z, h, hz⟩ => reversible_of_sub_self hy h hz
  tfae_have 3 → 1 := fun h x hx => sub_isDifference hx hy h
  tfae_finish

/-- A tenth has an exact opposite, so that differences with it are true. -/
theorem sub_tfae_tenth :
    Representable (.decimal ⟨false, 1, -1⟩ .exact) ∧
    ∀ x, x.Representable →
      IsDifference x (.decimal ⟨false, 1, -1⟩ .exact) (x.sub (.decimal ⟨false, 1, -1⟩ .exact)) := by
  have hy : Representable (.decimal ⟨false, 1, -1⟩ .exact) := ⟨by decide, by decide⟩
  exact ⟨hy, ((sub_tfae hy).out 0 2).mpr (toDigits_of_lt (m := 1) (by norm_num [precision]) (-1))⟩

/-- The least word overflows where the difference would fit, and the largest decimal less itself is
not zero. -/
theorem sub_not_isDifference :
    (Representable (.ratio (-1) 1) ∧ Representable (.ratio (-maxWord - 1) 1) ∧
      (ratio (-1) 1).sub (.ratio (-maxWord - 1) 1) = failMaths .overflow ∧
      ¬IsDifference (.ratio (-1) 1) (.ratio (-maxWord - 1) 1)
        ((ratio (-1) 1).sub (.ratio (-maxWord - 1) 1))) ∧
    Representable (.decimal (.ofNat maxMagnitude) .exact) ∧
    (decimal (.ofNat maxMagnitude) .exact).sub (.decimal (.ofNat maxMagnitude) .exact) =
      .ok (.decimal (.ofInt (-5)) .exact) ∧
    ¬IsDifference (.decimal (.ofNat maxMagnitude) .exact) (.decimal (.ofNat maxMagnitude) .exact)
      ((decimal (.ofNat maxMagnitude) .exact).sub (.decimal (.ofNat maxMagnitude) .exact)) := by
  have hleast : Representable (.ratio (-maxWord - 1) 1) :=
    ⟨by decide, by decide, by decide, by decide⟩
  have hoverflow : (ratio (-1) 1).sub (.ratio (-maxWord - 1) 1) = failMaths .overflow := by
    decide +kernel
  have hlargest : Representable (.decimal (.ofNat maxMagnitude) .exact) := ⟨by decide, by decide⟩
  have hfive : (decimal (.ofNat maxMagnitude) .exact).sub (.decimal (.ofNat maxMagnitude) .exact) =
      .ok (.decimal (.ofInt (-5)) .exact) := by
    decide +kernel
  refine ⟨⟨⟨by decide, by decide, by decide, by decide⟩, hleast, hoverflow, fun h => ?_⟩, hlargest,
    hfive, fun h => ?_⟩
  · have hvalue : (ratio (-1) 1).value - (ratio (-maxWord - 1) 1).value = (maxWord : ℤ) := by
      norm_num [value, maxWord]
    have hchecked : (ratio (-1) 1).sub (.ratio (-maxWord - 1) 1) =
        checked ((ratio (-1) 1).value - (ratio (-maxWord - 1) 1).value) := h
    have hfits : Fits (maxWord : ℤ) := ⟨by rw [Rat.num_intCast]; decide, rfl⟩
    rw [hoverflow, hvalue, checked_of_fits hfits] at hchecked
    cases hchecked
  · obtain ⟨z, hz, hzero⟩ := isZero_sub_self hlargest h
    rw [hfive] at hz
    obtain rfl := Except.ok.inj hz
    exact absurd hzero (by decide)

end Number
end Mathpad
