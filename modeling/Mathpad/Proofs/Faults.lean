import Mathpad.Proofs.Fractions
import Mathpad.Proofs.Rules

/-!
# Which faults arithmetic reports

Arithmetic on numbers that has no result says so with a fault that has a message, and it
makes no fraction with the denominator zero out of others. The one question that such a
fraction cannot answer is whether it is a whole number.
-/
set_option autoImplicit false

namespace Mathpad

theorem failMaths_isMaths {α : Type} (e : MathsError) {Q : α → Prop} :
    Meets (failMaths e) Q Fault.IsMaths := ⟨e, rfl⟩

namespace Decimal

/-- A decimal that cannot be fitted to the range is a fault in arithmetic. -/
theorem fit_isMaths (d : Decimal) : Meets d.fit (fun _ => True) Fault.IsMaths :=
  d.fit_meets.mono (fun _ _ => trivial) fun _ => Fault.IsOverflow.isMaths

/-- A quotient of decimals fails with a fault in arithmetic. -/
theorem quotient_isMaths (a b : Decimal) :
    Meets (a.quotient b) (fun _ => True) Fault.IsMaths := by
  unfold quotient
  by_cases hb : b.digits = 0
  · rw [if_pos hb]
    exact failMaths_isMaths _
  · rw [if_neg hb]
    exact fit_isMaths _

/-- A power of decimals fails with a fault in arithmetic. -/
theorem power_isMaths (b e : Decimal) : Meets (b.power e) (fun _ => True) Fault.IsMaths := by
  unfold power
  cases b.pow precision e with
  | value d => exact fit_isMaths d
  | vanishing negative => exact fit_isMaths _
  | huge => exact failMaths_isMaths _
  | undefined => exact failMaths_isMaths _

end Decimal

namespace Number

/-- Reducing a fraction keeps it one with a denominator. -/
theorem simplify_meets (x : Number) :
    Meets x.simplify (fun y => x.HasDenominator → y.HasDenominator) Fault.IsMaths := by
  cases x with
  | ratio n d =>
    -- with a denominator of zero there is nothing to show but which faults there are
    by_cases hd : d = 0
    · rw [simplify]
      refine (word_meets _).isMaths.bind fun m _ => ?_
      refine (word_meets _).isMaths.bind fun k _ => ?_
      exact fun hden => absurd hd hden
    · refine (simplify_yields n hd).isMaths.imp fun y hy _ => ?_
      rw [hy.1]
      exact hasDenominator_ofRat _
  | decimal v a => exact fun _ => trivial

/-- An operation on two numbers keeps denominators if it does on fractions. What its decimals fail
with is a fault in arithmetic, and so is what else it fails with. -/
theorem combine_meets {ratios : Int → Int → Int → Int → Number}
    {decimals : Decimal → Decimal → Outcome Decimal} {x y : Number}
    (hratios : ∀ a b c d, x = .ratio a b → y = .ratio c d → b ≠ 0 → d ≠ 0 →
      (ratios a b c d).HasDenominator)
    (hdecimals : ∀ v w, Meets (decimals v w) (fun _ => True) Fault.IsMaths) :
    Meets (combine ratios decimals x y)
      (fun z => x.HasDenominator → y.HasDenominator → z.HasDenominator) Fault.IsMaths := by
  -- a decimal on either side makes both of them decimals
  have hmixed : Meets (do
      let v ← x.toDecimal
      let w ← y.toDecimal
      return Number.decimal (← decimals v w) (x.accuracy.combine y.accuracy))
      (fun z => x.HasDenominator → y.HasDenominator → z.HasDenominator) Fault.IsMaths :=
    x.toDecimal_isMaths.bind fun v _ => y.toDecimal_isMaths.bind fun w _ =>
      (hdecimals v w).bind fun _ _ _ _ => trivial
  cases x with
  | ratio a b =>
    cases y with
    | ratio c d =>
      exact (simplify_meets _).imp fun z hz hb hd => hz (hratios a b c d rfl rfl hb hd)
    | decimal w k => exact hmixed
  | decimal v k => exact hmixed

theorem add_meets (x y : Number) :
    Meets (x.add y) (fun z => x.HasDenominator → y.HasDenominator → z.HasDenominator)
      Fault.IsMaths :=
  combine_meets (fun _ _ _ _ _ _ hb hd => mul_ne_zero hb hd) fun _ _ => Decimal.fit_isMaths _

theorem mul_meets (x y : Number) :
    Meets (x.mul y) (fun z => x.HasDenominator → y.HasDenominator → z.HasDenominator)
      Fault.IsMaths :=
  combine_meets (fun _ _ _ _ _ _ hb hd => mul_ne_zero hb hd) fun _ _ => Decimal.fit_isMaths _

/-- A quotient has a denominator if both numbers have: what would be none is a division by zero. -/
theorem div_meets (x y : Number) :
    Meets (x.div y) (fun z => x.HasDenominator → y.HasDenominator → z.HasDenominator)
      Fault.IsMaths := by
  unfold div
  by_cases hy : y.isZero = true
  · rw [if_pos hy]
    exact failMaths_isMaths _
  · rw [if_neg hy]
    refine combine_meets (fun a b c d _ hyc hb _ => ?_) Decimal.quotient_isMaths
    have hc : c ≠ 0 := by
      intro hc
      rw [hyc, hc] at hy
      exact hy rfl
    exact mul_ne_zero hb hc

/-- A natural power has a denominator if its base has. -/
theorem powNat_meets (x : Number) {n : Nat} (hn : n ≠ 0) :
    Meets (x.powNat n) (fun z => x.HasDenominator → z.HasDenominator) Fault.IsMaths := by
  cases x with
  | ratio p q =>
    rw [powNat]
    by_cases hover : (powOverflows p n || powOverflows q n) = true
    · rw [if_pos hover]
      exact failMaths_isMaths _
    · rw [if_neg hover]
      refine (simplify_meets _).imp fun z hz hq => hz ?_
      rw [HasDenominator, intPow_eq _ hn]
      exact pow_ne_zero n hq
  | decimal v a => exact (Decimal.power_isMaths v _).bind fun _ _ _ => trivial

/-- A whole power has a denominator if its base has. -/
theorem powInt_meets (x : Number) (e : Int) :
    Meets (x.powInt e) (fun z => x.HasDenominator → z.HasDenominator) Fault.IsMaths := by
  unfold powInt
  by_cases hneg : e < 0
  · rw [if_pos hneg]
    by_cases hx : x.isZero = true
    · rw [if_pos hx]
      exact failMaths_isMaths _
    · rw [if_neg hx]
      refine (div_meets one x).bind fun y hy => ?_
      refine (powNat_meets y (by omega)).imp fun z hz hden => hz (hy ?_ hden)
      exact hasDenominator_ofRat 1
  · rw [if_neg hneg]
    by_cases hzero : e = 0
    · rw [if_pos hzero]
      cases x with
      | ratio n d => exact fun _ => hasDenominator_ofRat 1
      | decimal v a => exact fun _ => trivial
    · rw [if_neg hzero]
      exact powNat_meets x (by omega)

/-- Whether a number is whole can be said of every number with a denominator. -/
theorem whole?_meets {x : Number} (hx : x.HasDenominator) (E : Fault → Prop) :
    Meets x.whole? (fun _ => True) E := by
  cases x with
  | ratio n d =>
    have hd : ¬d = 0 := hx
    simp [whole?, hd]
  | decimal v a =>
    rw [whole?]
    cases v.whole? <;> simp

/-- Whether a number is whole cannot be said if it is a fraction without a denominator, and this is
the only reason. -/
theorem whole?_fault (x : Number) :
    Meets x.whole? (fun _ => True) (· = .mishap .zeroDenominator) := by
  by_cases hx : x.HasDenominator
  · exact whole?_meets hx _
  · cases x with
    | ratio n d =>
      have hd : d = 0 := by simpa [HasDenominator] using hx
      simp [whole?, hd]
    | decimal v a => exact absurd trivial hx

/-- An approximate power fails with a fault in arithmetic. -/
theorem approximatePower_isMaths (b e : Decimal) :
    Meets (approximatePower b e) (fun _ => True) Fault.IsMaths := by
  unfold approximatePower
  by_cases hb : b.digits = 0
  · rw [if_pos hb]
    by_cases he : e.isBelowZero = true
    · rw [if_pos he]
      exact failMaths_isMaths _
    · rw [if_neg he]
      exact trivial
  · rw [if_neg hb]
    exact Decimal.power_isMaths b e

/-- A power with a decimal exponent has a denominator if its base has. -/
theorem pow_decimal_meets (x : Number) (v : Decimal) (a : Accuracy) :
    Meets (x.pow (.decimal v a)) (fun z => x.HasDenominator → z.HasDenominator)
      Fault.IsMaths := by
  have hwhole : Meets (whole? (.decimal v a)) (fun _ => True) Fault.IsMaths :=
    whole?_meets (by trivial) _
  unfold pow
  refine hwhole.bind fun whole _ => ?_
  cases whole with
  | some n => exact powInt_meets x n
  | none =>
    change Meets (if x.isNegative then failMaths .imaginary
      else do return Number.decimal (← approximatePower (← x.toDecimal) v) .approximate) _ _
    by_cases hx : x.isNegative = true
    · rw [if_pos hx]
      exact failMaths_isMaths _
    · rw [if_neg hx]
      exact x.toDecimal_isMaths.bind fun w _ =>
        (approximatePower_isMaths w v).bind fun _ _ _ => trivial

end Number

namespace Term

/-- Sums and products have a denominator if both numbers have. -/
theorem combine_meets (op : Operation) (x y : Number) :
    Meets (op.combine x y) (fun z => x.HasDenominator → y.HasDenominator → z.HasDenominator)
      Fault.IsMaths := by
  cases op with
  | product => exact Number.mul_meets x y
  | sum => exact Number.add_meets x y

theorem neutral_hasDenominator (op : Operation) : op.neutral.HasDenominator := by
  cases op with
  | product => exact Number.hasDenominator_ofRat 1
  | sum => exact Number.hasDenominator_ofRat 0

/-- Combining numbers one after the other. -/
theorem total_meets (op : Operation) (numbers : List Number) (start : Number) :
    Meets (numbers.foldlM op.combine start)
      (fun total => start.HasDenominator → (∀ x ∈ numbers, x.HasDenominator) →
        total.HasDenominator) Fault.IsMaths := by
  induction numbers generalizing start with
  | nil => exact fun h _ => h
  | cons x xs ih =>
    rw [List.foldlM_cons]
    refine (combine_meets op start x).bind fun y hy => ?_
    refine (ih y).imp fun total htotal hstart hxs => ?_
    exact htotal (hy hstart (hxs x (by simp))) fun z hz => hxs z (by simp [hz])

/-- What the numbers of a sum or a product become: one number at most. -/
structure NumbersMerged (numbers merged : List Number) : Prop where
  length_le_one : merged.length ≤ 1
  length_le : merged.length ≤ numbers.length
  hasDenominator : (∀ x ∈ numbers, x.HasDenominator) → ∀ x ∈ merged, x.HasDenominator

/-- Merging the numbers of an operation leaves one at most, with a denominator if all have one. -/
theorem mergeNumbers_meets (op : Operation) (numbers : List Number) (alone : Bool) :
    Meets (mergeNumbers op numbers alone) (fun out => NumbersMerged numbers out.1)
      Fault.IsMaths := by
  have hnil : NumbersMerged numbers [] := ⟨by simp, by simp, by simp⟩
  unfold mergeNumbers
  by_cases hempty : numbers.isEmpty = true
  · rw [if_pos hempty]
    exact hnil
  · rw [if_neg hempty]
    refine (total_meets op numbers op.neutral).bind fun total htotal => ?_
    by_cases hneutral : (op.isNeutral total && !alone) = true
    · rw [if_pos hneutral]
      exact hnil
    · rw [if_neg hneutral]
      by_cases hlong : 1 < numbers.length
      · rw [if_pos hlong]
        exact ⟨by simp, by simp; omega, fun h x hx => by
          obtain rfl : x = total := by simpa using hx
          exact htotal (neutral_hasDenominator op) h⟩
      · rw [if_neg hlong]
        exact ⟨by simpa using hlong, le_refl _, fun h => h⟩

/-- A power of numbers that is computed has a denominator if its base has. -/
theorem numberPower?_meets (x : Number) (e : Term) (whole : Option Int) :
    Meets (numberPower? x e whole)
      (fun out => ∀ y, out = some y → x.HasDenominator → y.HasDenominator) Fault.IsMaths := by
  have hsome : ∀ {o : Outcome Number},
      Meets o (fun z => x.HasDenominator → z.HasDenominator) Fault.IsMaths →
      Meets (some <$> o) (fun out => ∀ y, out = some y → x.HasDenominator → y.HasDenominator)
        Fault.IsMaths := fun ho => Meets.map (ho.imp fun z hz y hy => by
          obtain rfl := Option.some.inj hy
          exact hz)
  unfold numberPower?
  cases whole with
  | some n => exact hsome (Number.powInt_meets x n)
  | none =>
    cases e with
    | number y =>
      cases y with
      | ratio n d => exact nofun
      | decimal v a => exact hsome (Number.pow_decimal_meets x v a)
    | _ => exact nofun

end Term
end Mathpad
