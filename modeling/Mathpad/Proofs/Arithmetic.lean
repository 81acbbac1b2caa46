import Mathpad.Proofs.ExactRoots
import Mathpad.Proofs.InRange

/-!
# Arithmetic stays in range

Whatever decimals and whatever fractions in lowest terms an operation is applied to, its result
is a fraction in lowest terms with both parts in a word or a decimal in range. If there is no
result, then it overflows, or the operation is undefined there: a quotient by zero, a root of a
negative number. A change of sign is the exception, since it rounds but does not fit.
-/
set_option autoImplicit false

namespace Mathpad

namespace Number

/-! ## Operations -/

/-- The operations on one number. -/
inductive Unary where
  | neg
  | powInt (n : Int)
  | reciprocal
  | sqrt
  | simplify
  | denoise
  deriving DecidableEq, Repr

/-- The operations on two numbers. -/
inductive Binary where
  | add
  | sub
  | mul
  | div
  | pow
  deriving DecidableEq, Repr

/-- What an operation makes of a number. -/
def Unary.act : Unary → Number → Outcome Number
  | neg, x => x.neg
  | powInt n, x => x.powInt n
  | reciprocal, x => x.reciprocal
  | sqrt, x => x.sqrt
  | simplify, x => x.simplify
  | denoise, x => .ok x.denoise

/-- What an operation makes of two numbers. -/
def Binary.act : Binary → Number → Number → Outcome Number
  | add, x, y => x.add y
  | sub, x, y => x.sub y
  | mul, x, y => x.mul y
  | div, x, y => x.div y
  | pow, x, y => x.pow y

/-- Why an operation on a number has no result, however large numbers may be. -/
inductive Unary.Undefined (x : Number) : Unary → Fault → Prop
  | power {n : Int} (hx : x.isZero = true) (hn : n < 0) :
      Undefined x (.powInt n) (.maths .divisionByZero)
  | reciprocal (hx : x.isZero = true) : Undefined x .reciprocal (.maths .divisionByZero)
  | sqrt (hx : x.isNegative = true) : Undefined x .sqrt (.maths .invalidSqrt)

/-- Why an operation on two numbers has no result, however large numbers may be. -/
inductive Binary.Undefined (x y : Number) : Binary → Fault → Prop
  | quotient (hy : y.isZero = true) : Undefined x y .div (.maths .divisionByZero)
  | power (hx : x.isZero = true) (hy : y.isNegative = true) :
      Undefined x y .pow (.maths .divisionByZero)
  | root (hx : x.isNegative = true) (hy : y.whole? = .ok none) :
      Undefined x y .pow (.maths .imaginary)

/-- A fraction is in lowest terms with both parts in a word; a decimal is any. -/
inductive Lowest : Number → Prop
  | ratio {q : ℚ} (h : Fits q) : Lowest (ofRat q)
  | decimal (v : Decimal) (a : Accuracy) : Lowest (.decimal v a)

theorem Lowest.hasDenominator {x : Number} (h : x.Lowest) : x.HasDenominator := by
  cases h with
  | ratio => exact hasDenominator_ofRat _
  | decimal => trivial

/-- A fraction in lowest terms with both parts in a word, or a decimal in range. -/
inductive InRange : Number → Prop
  | ratio {q : ℚ} (h : Fits q) : InRange (ofRat q)
  | decimal {v : Decimal} (h : v.InRange) (a : Accuracy) : InRange (.decimal v a)

theorem InRange.lowest {x : Number} (h : x.InRange) : x.Lowest := by
  cases h with
  | ratio hq => exact .ratio hq
  | decimal _ a => exact .decimal _ a

/-- An exact operation on fractions stays in range or overflows. -/
theorem Yields.inRange {o : Outcome Number} {q : ℚ} (h : Yields o q) :
    Meets o InRange Fault.IsOverflow := by
  refine Meets.imp h fun x hx => ?_
  rw [hx.1]
  exact .ratio hx.2

end Number

/-! ## Signs -/

namespace Decimal

/-- The quotient of two numbers that are not negative is none. -/
theorem negative_div (p : Nat) (a b : Decimal) : (a.div p b).negative = (a.negative != b.negative) := by
  unfold div
  by_cases ha : a.digits = 0
  · simp only [ha, if_true]
  · simp only [ha, if_false]
    split
    · exact negative_round p _
    · exact negative_round p _

/-- Dropping places does not change a sign. -/
theorem negative_placed (d : Decimal) : d.placed.negative = d.negative := by
  unfold placed atPlaces
  split
  · dsimp only
    split <;> rfl
  · rfl

/-- Fitting a decimal to the range does not change its sign. -/
theorem negative_of_fit {d v : Decimal} (h : d.fit = .ok v) : v.negative = d.negative := by
  obtain ⟨rfl, -⟩ := fit_eq_ok h
  exact negative_placed d

/-- A quotient is negative if and only if one of the two decimals is, as their flags say. -/
theorem negative_of_quotient {a b v : Decimal} (h : a.quotient b = .ok v) :
    v.negative = (a.negative != b.negative) := by
  unfold quotient at h
  split at h
  · cases h
  · rw [negative_of_fit h, negative_div]

/-- A whole number below zero is below zero as a decimal. -/
theorem isBelowZero_of_whole? {v : Decimal} {n : Int} (h : v.whole? = some n) (hn : n < 0) :
    v.isBelowZero = true := by
  unfold whole? at h
  split at h
  · next m hm =>
    obtain rfl := Option.some.inj h
    have hnegative : v.negative = true := by
      by_contra hpositive
      rw [if_neg hpositive] at hn
      omega
    have hm0 : m ≠ 0 := by
      rintro rfl
      simp at hn
    have hdigits : v.digits ≠ 0 := by
      intro hzero
      unfold wholePart at hm
      simp only [hzero, Nat.zero_mul, Nat.zero_div] at hm
      split at hm
      · exact hm0 (congrArg Prod.fst hm).symm
      · exact hm0 (congrArg Prod.fst hm).symm
    simp [isBelowZero, hnegative, hdigits]
  · cases h

theorem whole?_ofNat (n : Nat) : (ofNat n).whole? = some n := by
  simp [whole?, wholePart, ofNat]

/-- A power with a whole exponent takes its sign from the parity of the exponent. -/
theorem negative_pow {p : Nat} {b e d : Decimal} {m : Int} (he : e.whole? = some m)
    (h : b.pow p e = .value d) : d.negative = (b.negative && decide (m % 2 = 1)) := by
  -- the sign is decided on before anything else, so each branch of the power has it
  unfold pow at h
  simp only [he] at h
  split at h
  · split at h
    · cases h
    · split at h
      · cases h
      · cases h
        rfl
  split at h
  · cases h
  split at h
  · cases h
    rfl
  split at h
  · cases h
    rfl
  split at h
  · cases h
  · cases h
  · cases h
    exact negative_round p _

/-- A power of zero has no places. -/
theorem pow_of_zero {p : Nat} {b e d : Decimal} (hb : b.digits = 0) (h : b.pow p e = .value d) :
    ∃ negative, d = ⟨negative, 0, 0⟩ := by
  unfold pow at h
  simp only [hb, if_true] at h
  split at h
  · cases h
  · split at h
    · cases h
    · cases h
      exact ⟨_, rfl⟩

/-- A power with a whole exponent that is not zero is no power of zero, and its sign comes from the
parity of the exponent. -/
theorem sign_of_power {v e w : Decimal} {m : Int} (he : e.whole? = some m)
    (h : v.power e = .ok w) (hw : w.digits ≠ 0) :
    v.digits ≠ 0 ∧ w.negative = (v.negative && decide (m % 2 = 1)) := by
  unfold power at h
  cases hpow : v.pow precision e with
  | value d =>
    rw [hpow] at h
    obtain ⟨hplaced, -⟩ := fit_eq_ok h
    refine ⟨fun hzero => hw ?_, by rw [negative_of_fit h, negative_pow he hpow]⟩
    obtain ⟨negative, rfl⟩ := pow_of_zero hzero hpow
    rw [hplaced]
    rfl
  | vanishing negative =>
    rw [hpow] at h
    obtain ⟨hplaced, -⟩ := fit_eq_ok h
    rw [hplaced] at hw
    exact absurd rfl hw
  | huge =>
    rw [hpow] at h
    cases h
  | undefined =>
    rw [hpow] at h
    cases h

/-- A whole power of a decimal that is not below zero is not below zero either. -/
theorem isBelowZero_of_power {v w : Decimal} {n : Nat} (h : v.power (ofNat n) = .ok w)
    (hw : w.isBelowZero = true) : v.isBelowZero = true := by
  rw [isBelowZero, Bool.and_eq_true, bne_iff_ne] at hw ⊢
  obtain ⟨hdigits, hnegative⟩ := sign_of_power (whole?_ofNat n) h hw.2
  rw [hw.1] at hnegative
  exact ⟨(Bool.and_eq_true_iff.mp hnegative.symm).1, hdigits⟩

end Decimal

namespace Number

/-! ## Operations with a result wherever it fits -/

/-- A fraction with both parts in a word has a decimal form, or overflows. -/
theorem Lowest.toDecimal_meets {x : Number} (h : x.Lowest) :
    Meets x.toDecimal (fun _ => True) Fault.IsOverflow :=
  Number.toDecimal_meets h.hasDenominator

/-- Fractions are combined exactly, and decimals with a result that is in range. -/
theorem combine_inRange {ratios : Int → Int → Int → Int → Number}
    {decimals : Decimal → Decimal → Outcome Decimal} {x y : Number} (hx : x.Lowest)
    (hy : y.Lowest)
    (hratios : ∀ p q, x = ofRat p → y = ofRat q →
      Meets (combine ratios decimals (ofRat p) (ofRat q)) InRange Fault.IsOverflow)
    (hdecimals : ∀ v w, y.toDecimal = .ok w → Meets (decimals v w) Decimal.InRange Fault.IsOverflow) :
    Meets (combine ratios decimals x y) InRange Fault.IsOverflow := by
  have hmixed : Meets (do
      let v ← x.toDecimal
      let w ← y.toDecimal
      return Number.decimal (← decimals v w) (x.accuracy.combine y.accuracy))
      InRange Fault.IsOverflow :=
    hx.toDecimal_meets.bind fun v _ => hy.toDecimal_meets.eq_and.bind fun w hw =>
      (hdecimals v w hw.1).bind fun u hu => .decimal hu _
  cases hx with
  | ratio hp =>
    cases hy with
    | ratio hq => exact hratios _ _ rfl rfl
    | decimal => exact hmixed
  | decimal => exact hmixed

theorem add_inRange {x y : Number} (hx : x.Lowest) (hy : y.Lowest) :
    Meets (x.add y) InRange Fault.IsOverflow :=
  combine_inRange hx hy (fun p q _ _ => (add_ofRat p q).inRange)
    fun _ _ _ => Decimal.round_fit_inRange _

theorem mul_inRange {x y : Number} (hx : x.Lowest) (hy : y.Lowest) :
    Meets (x.mul y) InRange Fault.IsOverflow :=
  combine_inRange hx hy (fun p q _ _ => (mul_ofRat p q).inRange)
    fun _ _ _ => Decimal.round_fit_inRange _

/-- The opposite of a number is in lowest terms, but may be out of range: nothing fits it. -/
theorem neg_overflow {x : Number} (hx : x.Lowest) : Meets x.neg Lowest Fault.IsOverflow := by
  cases hx with
  | ratio => exact (neg_ofRat _).mono (fun y hy => hy.1 ▸ .ratio hy.2) fun _ h => h
  | decimal v a => exact .decimal _ a

/-- A difference stays in range or overflows, although the opposite of the second number need not be
in range. -/
theorem sub_inRange {x y : Number} (hx : x.Lowest) (hy : y.Lowest) :
    Meets (x.sub y) InRange Fault.IsOverflow :=
  (neg_overflow hy).bind fun _ hz => add_inRange hx hz

/-! ## Operations that are not defined everywhere -/

/-- Of the fractions only zero has a decimal that is zero. -/
theorem isZero_of_toDecimal {x : Number} (hx : x.Lowest) {v : Decimal} (hv : x.toDecimal = .ok v)
    (hzero : v.digits = 0) : x.isZero = true := by
  cases hx with
  | @ratio q hq =>
    refine (isZero_ofRat q).mpr (by_contra fun hne => ?_)
    have hnear := abs_toDecimal_sub_le hv
    have hvalue : v.value = 0 := by rw [← abs_eq_zero, Decimal.abs_value, hzero]; simp
    -- the least fraction above zero is far larger than the distance to its decimal
    have hlarge := hq.one_div_le_abs hne
    rw [hvalue, zero_sub, abs_neg, slack] at hnear
    norm_num at hnear hlarge
    linarith
  | decimal w a =>
    obtain rfl := Except.ok.inj hv
    exact beq_iff_eq.mpr hzero

/-- A quotient, unless the divisor is zero. -/
theorem div_inRange {x y : Number} (hx : x.Lowest) (hy : y.Lowest) :
    Meets (x.div y) InRange fun f => f.IsOverflow ∨ Binary.Undefined x y .div f := by
  unfold div
  by_cases hzero : y.isZero = true
  · rw [if_pos hzero]
    exact .inr (.quotient hzero)
  · rw [if_neg hzero]
    refine (combine_inRange hx hy (fun p q _ hyq => ?_) fun v w hw => ?_).mono
      (fun _ h => h) fun _ => .inl
    · have hq : ¬(ofRat q).isZero = true := hyq ▸ hzero
      have hdiv := div_ofRat p fun hzero => hq ((isZero_ofRat q).mpr hzero)
      rw [div, if_neg hq] at hdiv
      exact hdiv.inRange
    · exact Decimal.quotient_inRange v fun hdigits => hzero (isZero_of_toDecimal hy hw hdigits)

theorem one_lowest : one.Lowest := .ratio (q := 1) fits_one

/-- An inverse stays in range or overflows, except that of zero. -/
theorem reciprocal_inRange {x : Number} (hx : x.Lowest) :
    Meets x.reciprocal InRange fun f => f.IsOverflow ∨ Unary.Undefined x .reciprocal f :=
  (div_inRange one_lowest hx).mono (fun _ h => h) fun f hf => by
    rcases hf with hf | hf
    · exact .inl hf
    · cases hf with
      | quotient hzero => exact .inr (.reciprocal hzero)

/-- A natural power other than the zeroth stays in range or overflows. -/
theorem powNat_inRange {x : Number} (hx : x.Lowest) {n : Nat} (hn : n ≠ 0) :
    Meets (x.powNat n) InRange Fault.IsOverflow := by
  cases hx with
  | @ratio q _ => exact (powNat_ofRat q hn).inRange
  | decimal v a => exact (Decimal.power_inRange v _).bind fun _ hu => .decimal hu _

/-- A whole power, unless it is a negative one of zero. -/
theorem powInt_inRange {x : Number} (hx : x.Lowest) (n : Int) :
    Meets (x.powInt n) InRange fun f => f.IsOverflow ∨ Unary.Undefined x (.powInt n) f := by
  unfold powInt
  by_cases hneg : n < 0
  · rw [if_pos hneg]
    by_cases hzero : x.isZero = true
    · rw [if_pos hzero]
      exact .inr (.power hzero hneg)
    · rw [if_neg hzero]
      refine ((reciprocal_inRange hx).mono (fun _ h => h) fun f hf => ?_).bind
        fun y hy => (powNat_inRange hy.lowest (by omega)).mono (fun _ h => h) fun _ => .inl
      rcases hf with hf | ⟨_, _⟩ | ⟨hx⟩
      · exact .inl hf
      · exact absurd hx hzero
  · rw [if_neg hneg]
    by_cases hzero : n = 0
    · rw [if_pos hzero]
      cases hx with
      | ratio => exact InRange.ratio fits_one
      | decimal v a => exact .decimal Decimal.one_inRange a
    · rw [if_neg hzero]
      exact (powNat_inRange hx (by omega)).mono (fun _ h => h) fun _ => .inl

/-- A root, unless it is one of even degree of a negative number. -/
theorem root_inRange {x : Number} (hx : x.Lowest) {k : Nat} (hk : 1 ≤ k) :
    Meets (x.root k) InRange fun f =>
      f.IsOverflow ∨ f = .maths .imaginary ∧ x.isNegative = true := by
  unfold root
  by_cases himaginary : x.isNegative = true ∧ k % 2 = 0
  · rw [if_pos himaginary]
    exact .inr ⟨rfl, himaginary.1⟩
  · rw [if_neg himaginary]
    cases hroot : x.exactRoot? k with
    | some y =>
      cases hx with
      | @ratio q hq =>
        have heven : ¬(q < 0 ∧ Even k) := fun hboth =>
          himaginary ⟨(isNegative_ofRat q).mpr hboth.1, Nat.even_iff.mp hboth.2⟩
        obtain ⟨r, rfl, hpow, -⟩ := exactRoot?_ofRat hk heven hroot
        exact InRange.ratio (fits_of_pow (by omega) hpow hq)
      | decimal v a => cases hroot
    | none =>
      -- the exponent is the reciprocal of the degree, so no zero is inverted
      have hpositive : (Decimal.one.div precision (Decimal.ofNat k)).isBelowZero = false := by
        rw [Decimal.isBelowZero, Decimal.negative_div]
        rfl
      refine (hx.toDecimal_meets.mono (fun _ h => h) fun _ => .inl).bind fun base _ => ?_
      refine ((Decimal.approximatePower_inRange _ _).mono (fun _ h => h) fun f hf => ?_).bind
        fun size hsize => ?_
      · rcases hf with hf | ⟨-, -, hbelow⟩
        · exact .inl hf
        · rw [hpositive] at hbelow
          cases hbelow
      · refine .decimal ?_ _
        split
        · exact Decimal.negate_inRange hsize.places hsize.abs_value_lt
        · exact hsize

/-- A natural power is negative only if its base is. -/
theorem isNegative_of_powNat {x y : Number} (hx : x.Lowest) {n : Nat} (hn : n ≠ 0)
    (h : x.powNat n = .ok y) (hy : y.isNegative = true) : x.isNegative = true := by
  cases hx with
  | @ratio q _ =>
    rw [((powNat_ofRat q hn).of_ok h).1, isNegative_ofRat] at hy
    rw [isNegative_ofRat]
    by_contra hq
    exact absurd hy (not_lt.mpr (pow_nonneg (not_lt.mp hq) n))
  | decimal v a =>
    obtain ⟨w, hw, h⟩ := Outcome.bind_eq_ok.mp h
    cases h
    exact Decimal.isBelowZero_of_power hw hy

/-- The reciprocal of a number that is not negative is not negative either. -/
theorem isNegative_of_reciprocal {x y : Number} (hx : x.Lowest) (h : x.reciprocal = .ok y)
    (hy : y.isNegative = true) : x.isNegative = true := by
  rw [reciprocal, div] at h
  by_cases hzero : x.isZero = true
  · rw [if_pos hzero] at h
    cases h
  rw [if_neg hzero] at h
  cases hx with
  | @ratio q _ =>
    have hq : q ≠ 0 := fun hq => hzero ((isZero_ofRat q).mpr hq)
    have hdiv := div_ofRat 1 hq
    rw [div, if_neg hzero] at hdiv
    rw [(hdiv.of_ok h).1, isNegative_ofRat, one_div, inv_lt_zero] at hy
    exact (isNegative_ofRat q).mpr hy
  | decimal v a =>
    obtain ⟨w, hw, hrest⟩ := Outcome.bind_eq_ok.mp h
    rw [show (Number.decimal v a).toDecimal = .ok v from rfl, ok_bind] at hrest
    obtain ⟨u, hu, hy'⟩ := Outcome.bind_eq_ok.mp hrest
    obtain rfl := Except.ok.inj hy'
    have hdigits : v.digits ≠ 0 := fun hv => hzero (beq_iff_eq.mpr hv)
    -- one has no sign, so the quotient has that of the number
    have hone : w.negative = false := by
      rw [Decimal.negative_of_quotient hw]
      rfl
    have hsign : u.negative = v.negative := by
      rw [Decimal.negative_of_quotient hu, hone, Bool.false_bne]
    obtain ⟨hnegative, -⟩ := Bool.and_eq_true_iff.mp hy
    exact Bool.and_eq_true_iff.mpr ⟨hsign ▸ hnegative, bne_iff_ne.mpr hdigits⟩

/-- A whole power of a number that is not negative is not negative either. -/
theorem isNegative_of_powInt {x y : Number} (hx : x.Lowest) {n : Int} (h : x.powInt n = .ok y)
    (hy : y.isNegative = true) : x.isNegative = true := by
  unfold powInt at h
  by_cases hneg : n < 0
  · rw [if_pos hneg] at h
    by_cases hzero : x.isZero = true
    · rw [if_pos hzero] at h
      cases h
    · rw [if_neg hzero] at h
      obtain ⟨z, hz, h⟩ := Outcome.bind_eq_ok.mp h
      have hlowest := (div_inRange one_lowest hx).of_ok hz
      exact isNegative_of_reciprocal hx hz
        (isNegative_of_powNat hlowest.lowest (by omega) h hy)
  · rw [if_neg hneg] at h
    by_cases hzero : n = 0
    · rw [if_pos hzero] at h
      cases hx <;> cases h <;> cases hy
    · rw [if_neg hzero] at h
      exact isNegative_of_powNat hx (by omega) h hy

/-- A number that is whole and negative is negative as a number. -/
theorem isNegative_of_whole? {e : Number} (he : e.Lowest) {n : Int} (h : e.whole? = .ok (some n))
    (hn : n < 0) : e.isNegative = true := by
  cases he with
  | @ratio q _ =>
    rw [whole?_ofRat] at h
    by_cases hone : q.den = 1
    · rw [if_pos hone] at h
      cases h
      exact (isNegative_ofRat q).mpr (Rat.num_neg.mp hn)
    · rw [if_neg hone] at h
      cases h
  | decimal v a =>
    rw [whole?] at h
    cases hv : v.whole? with
    | none =>
      rw [hv] at h
      cases h
    | some m =>
      rw [hv] at h
      dsimp only at h
      split at h
      · cases h
        exact Decimal.isBelowZero_of_whole? hv hn
      · cases h

/-- A power, unless zero has a negative exponent or a negative number one that is not whole. -/
theorem pow_inRange {x e : Number} (hx : x.Lowest) (he : e.Lowest) :
    Meets (x.pow e) InRange fun f => f.IsOverflow ∨ Binary.Undefined x e .pow f := by
  have hpowInt : ∀ n : Int, (n < 0 → e.isNegative = true) →
      Meets (x.powInt n) InRange fun f => f.IsOverflow ∨ Binary.Undefined x e .pow f :=
    fun n hn => (powInt_inRange hx n).mono (fun _ h => h) fun f hf => by
      rcases hf with hf | ⟨hzero, hneg⟩
      · exact .inl hf
      · exact .inr (.power hzero (hn hneg))
  obtain ⟨whole, hwhole, -⟩ := (whole?_meets he.hasDenominator fun _ => False).exists_ok
  rw [pow, hwhole, ok_bind]
  cases whole with
  | some n => exact hpowInt n (isNegative_of_whole? he hwhole)
  | none =>
    cases he with
    | @ratio q hq =>
      -- a root of a whole power
      refine ((simplify_ofRat q).mono (fun _ h => h) fun _ => .inl).bind fun y hy => ?_
      rw [hy.1]
      have hsign : q.num < 0 → (ofRat q).isNegative = true := fun hneg =>
        (isNegative_ofRat q).mpr (Rat.num_neg.mp hneg)
      refine (hpowInt q.num hsign).eq_and.bind fun z hz => ?_
      refine (root_inRange hz.2.lowest q.den_pos).mono (fun _ h => h) fun f hf => ?_
      rcases hf with hf | ⟨rfl, hneg⟩
      · exact .inl hf
      · exact .inr (.root (isNegative_of_powInt hx hz.1 hneg) hwhole)
    | decimal v a =>
      change Meets (if x.isNegative then failMaths .imaginary
        else do return Number.decimal (← approximatePower (← x.toDecimal) v) .approximate) _ _
      by_cases hneg : x.isNegative = true
      · rw [if_pos hneg]
        exact .inr (.root hneg hwhole)
      · rw [if_neg hneg]
        refine (hx.toDecimal_meets.mono (fun _ h => h) fun _ => .inl).eq_and.bind fun w hw => ?_
        refine ((Decimal.approximatePower_inRange w v).mono (fun _ h => h) fun f hf => ?_).bind
          fun u hu => .decimal hu _
        rcases hf with hf | ⟨rfl, hzero, hbelow⟩
        · exact .inl hf
        · exact .inr (.power (isZero_of_toDecimal hx hw.1 hzero) hbelow)

/-- A square root, unless the number is negative. -/
theorem sqrt_inRange {x : Number} (hx : x.Lowest) :
    Meets x.sqrt InRange fun f => f.IsOverflow ∨ Unary.Undefined x .sqrt f := by
  unfold sqrt
  by_cases hneg : x.isNegative = true
  · rw [if_pos hneg]
    exact .inr (.sqrt hneg)
  rw [if_neg hneg]
  -- from here on nothing is undefined, and a fault is an overflow
  refine Meets.mono (D := Fault.IsOverflow) ?_ (fun _ h => h) fun _ => .inl
  cases hx with
  | @ratio q hq =>
    refine Meets.bind (simplify_ofRat q) fun y hy => ?_
    rw [hy.1, ofRat]
    dsimp only
    split
    · next r s hr hs =>
      have hpow := exactRoot?_pow (by decide) hs
      have hnonzero : (Decimal.ofNat s).digits ≠ 0 := by
        rintro hzero
        obtain rfl : s = 0 := hzero
        rw [zero_pow (by decide), Int.natAbs_natCast] at hpow
        exact q.den_nz hpow.symm
      exact (Decimal.quotient_inRange _ hnonzero).bind fun root hroot =>
        (Decimal.fit_meets _).bind fun back _ => .decimal hroot _
    · exact (toDecimal_meets (hasDenominator_ofRat q)).bind fun v _ =>
        (Decimal.fit_inRange (Decimal.digitCount_sqrt_le v)).bind fun root hroot =>
          .decimal hroot _
  | decimal v a =>
    exact (Decimal.fit_inRange (Decimal.digitCount_sqrt_le v)).bind fun root hroot =>
      (Decimal.fit_meets _).bind fun square _ => .decimal hroot _

/-- An operation on two numbers gives one in range, unless it is undefined. -/
theorem Binary.act_inRange (op : Binary) {x y : Number} (hx : x.Lowest) (hy : y.Lowest) :
    Meets (op.act x y) InRange fun f => f.IsOverflow ∨ op.Undefined x y f := by
  cases op with
  | add => exact (add_inRange hx hy).mono (fun _ h => h) fun _ => .inl
  | sub => exact (sub_inRange hx hy).mono (fun _ h => h) fun _ => .inl
  | mul => exact (mul_inRange hx hy).mono (fun _ h => h) fun _ => .inl
  | div => exact div_inRange hx hy
  | pow => exact pow_inRange hx hy

/-- The faults of an operation on two numbers are arithmetical. -/
theorem Binary.act_isMaths (op : Binary) {x y : Number} (hx : x.Lowest) (hy : y.Lowest) :
    Meets (op.act x y) InRange Fault.IsMaths :=
  (op.act_inRange hx hy).mono (fun _ h => h) fun f hf => by
    rcases hf with hf | hf
    · exact hf.isMaths
    · cases hf <;> exact ⟨_, rfl⟩

/-- A root stays in range, or there is a fault in arithmetic. -/
theorem sqrt_isMaths {x : Number} (hx : x.Lowest) : Meets x.sqrt InRange Fault.IsMaths :=
  (sqrt_inRange hx).mono (fun _ h => h) fun f hf => by
    rcases hf with hf | hf
    · exact hf.isMaths
    · cases hf
      exact ⟨_, rfl⟩

end Number
end Mathpad
