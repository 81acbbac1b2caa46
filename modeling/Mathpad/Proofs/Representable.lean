import Mathpad.Proofs.Figures

/-!
# Numbers that can be represented

A fraction can be represented when it is in lowest terms with both parts in a word, and a
decimal when its digits, with the zeros of a positive exponent written out, stay below
`2 ^ 96` and its places are no more than there may be. Everything in range can be represented.
What else can be represented are decimals with all twenty-nine digits, and of those the largest
one cannot change its sign.
-/
set_option autoImplicit false

namespace Mathpad

namespace Decimal

/-- The decimal is a whole number up to the largest magnitude over a power of ten with no more
than the permitted places. The zeros that a positive exponent stands for belong to the number. -/
structure Representable (v : Decimal) : Prop where
  places : -(maxPlaces : Int) ≤ v.exponent
  size : v.digits * 10 ^ v.exponent.toNat ≤ maxMagnitude

/-- Of a decimal that is not too large and has no more places than there may be, only the digits
behind the point can be too many. -/
theorem representable_iff {d : Decimal} (hplaces : -(maxPlaces : Int) ≤ d.exponent)
    (hsize : |d.value| < maxMagnitude) :
    d.Representable ↔ d.exponent < 0 → d.digits ≤ maxMagnitude := by
  constructor
  · intro h hneg
    have hzero : d.exponent.toNat = 0 := by omega
    simpa [hzero] using h.size
  · refine fun h => ⟨hplaces, ?_⟩
    by_cases hneg : d.exponent < 0
    · have hzero : d.exponent.toNat = 0 := by omega
      simpa [hzero] using h hneg
    · obtain ⟨k, hk⟩ : ∃ k : Nat, d.exponent = k := ⟨d.exponent.toNat, by omega⟩
      rw [abs_value, hk, zpow_natCast] at hsize
      rw [hk, Int.toNat_natCast]
      exact_mod_cast hsize.le

theorem InRange.representable {v : Decimal} (h : v.InRange) : v.Representable :=
  (representable_iff h.places h.abs_value_lt).mpr fun _ => (digits_lt_of_few h.digits).le

/-! ## The other sign -/

/-- The largest magnitude, written as a whole number. -/
def IsLargest (v : Decimal) : Prop := v.digits = maxMagnitude ∧ v.exponent = 0

instance (v : Decimal) : Decidable v.IsLargest := inferInstanceAs (Decidable (_ ∧ _))

/-- A decimal that can be represented is below the largest magnitude, unless it is the largest one.
-/
theorem abs_value_lt {v : Decimal} (hv : v.Representable) (hlargest : ¬v.IsLargest) :
    |v.value| < maxMagnitude := by
  rw [abs_value]
  by_cases hneg : v.exponent < 0
  · have hdigits : v.digits ≤ maxMagnitude := by
      have hzero : v.exponent.toNat = 0 := by omega
      simpa [hzero] using hv.size
    have htenth : (10 : ℚ) ^ v.exponent ≤ 10 ^ (-1 : Int) :=
      zpow_le_zpow_right₀ (by norm_num) (by omega)
    have hmax : (0 : ℚ) < maxMagnitude := by exact_mod_cast (show 0 < maxMagnitude by decide)
    calc (v.digits : ℚ) * 10 ^ v.exponent ≤ maxMagnitude * 10 ^ (-1 : Int) := by gcongr
      _ < maxMagnitude := by norm_num; linarith
  · obtain ⟨k, hk⟩ : ∃ k : Nat, v.exponent = k := ⟨v.exponent.toNat, by omega⟩
    have hle := hv.size
    rw [hk, Int.toNat_natCast] at hle
    rw [hk, zpow_natCast]
    have hne : v.digits * 10 ^ k ≠ maxMagnitude := by
      intro heq
      cases k with
      | zero => exact hlargest ⟨by simpa using heq, hk⟩
      | succ k =>
        -- the largest magnitude is no multiple of ten
        have hodd : maxMagnitude % 10 = 5 := by decide
        rw [pow_succ, ← mul_assoc] at heq
        omega
    exact_mod_cast lt_of_le_of_ne hle hne

/-- A decimal that can be represented can be represented with the other sign, unless it is the
largest one. -/
theorem negate_representable {v : Decimal} (hv : v.Representable) (hlargest : ¬v.IsLargest) :
    (v.negate precision).Representable :=
  (negate_inRange hv.places (abs_value_lt hv hlargest)).representable

/-- The largest decimal is rounded away from zero when its sign is changed. -/
theorem negate_largest {v : Decimal} (h : v.IsLargest) : ¬(v.negate precision).Representable := by
  obtain ⟨negative, digits, exponent⟩ := v
  obtain ⟨rfl, rfl⟩ : digits = maxMagnitude ∧ exponent = 0 := h
  intro hrep
  have hsize := hrep.size
  revert hsize
  cases negative <;> decide +kernel

/-! ## Removing noise -/

/-- A run is found only where there are places. -/
theorem ne_nil_of_findRun {n : Nat} (hn : n ≠ 0) {cs : List Char} {start : Nat} {run : Nat × Bool}
    (h : findRun n cs start = some run) : cs ≠ [] := by
  rintro rfl
  rw [findRun, if_neg hn] at h
  cases h

/-- Of a decimal with places only those that are kept stay, so that it has no more digits. -/
theorem digitsValue_take_le {m : Decimal} {whole places : List Char} (hm : m.SplitsAt whole places)
    (hneg : m.exponent < 0) (start : Nat) :
    digitsValue (whole ++ places.take start) ≤ m.digits := by
  have hzero : m.exponent.toNat = 0 := by omega
  have hvalue := hm.value
  rw [hzero, pow_zero, mul_one, ← List.take_append_drop start places, ← List.append_assoc,
    digitsValue_append] at hvalue
  have hpos : 0 < 10 ^ (places.drop start).length := by positivity
  have hle := Nat.le_mul_of_pos_right (digitsValue (whole ++ places.take start)) hpos
  omega

/-- A decimal of at most 28 digits, of which some may be places, is below the largest magnitude. -/
theorem abs_value_lt_of_places {n k : Nat} (hn : n ≤ 10 ^ 28) (negative : Bool) :
    |(⟨negative, n, -(k : Int)⟩ : Decimal).value| < maxMagnitude := by
  have hmax : ((10 ^ 28 : Nat) : ℚ) < maxMagnitude :=
    Nat.cast_lt.mpr (show 10 ^ 28 < maxMagnitude by decide)
  have hone : (10 : ℚ) ^ (-(k : Int)) ≤ 1 := zpow_le_one_of_nonpos₀ (by norm_num) (by omega)
  rw [abs_value]
  calc (n : ℚ) * 10 ^ (-(k : Int)) ≤ (10 ^ 28 : Nat) * 1 := by gcongr
    _ < maxMagnitude := by rw [mul_one]; exact hmax

/-- One more in the last place. -/
theorem add_last_place (n k : Nat) :
    (⟨false, n, -(k : Int)⟩ : Decimal).add ⟨false, 1, -(k : Int)⟩ = ⟨false, n + 1, -(k : Int)⟩ := by
  have hsum : ((n : Int) + 1).natAbs = n + 1 := by omega
  have hnonzero : ¬(n : Int) + 1 = 0 := by omega
  have hnonneg : ¬(n : Int) + 1 < 0 := by omega
  simp [add, units, signedDigits, hsum, hnonzero, hnonneg]

/-- What is left before the noise, and one more in its last place. -/
theorem raised_inRange {n k : Nat} (hn : n < 10 ^ 28) (hk : k ≤ maxPlaces) (nines : Bool) :
    (if nines then ((⟨false, n, -(k : Int)⟩ : Decimal).add ⟨false, 1, -(k : Int)⟩).round precision
      else ⟨false, n, -(k : Int)⟩).InRange := by
  have hplaces : -(maxPlaces : Int) ≤ -(k : Int) := by omega
  cases nines with
  | false =>
    have hcut := round_inRange (d := ⟨false, n, -(k : Int)⟩) hplaces
      (abs_value_lt_of_places hn.le false)
    have hfew : digitCount n ≤ precision := digitCount_le (by decide) hn
    rwa [round_of_digitCount_le hfew] at hcut
  | true =>
    rw [add_last_place]
    exact round_inRange hplaces (abs_value_lt_of_places hn false)

/-- Without noise a decimal has no more digits and places than it had, but for a carry. -/
theorem denoise_eq_or_inRange {v : Decimal} (hplaces : -(maxPlaces : Int) ≤ v.exponent) :
    v.denoise noiseRun = v ∨ (v.denoise noiseRun).InRange := by
  obtain ⟨whole, places, hsplit⟩ := (v.magnitude precision).exists_splitsAt
  have hpositive : ¬(noiseRun : Int) < 0 := by decide
  unfold denoise
  simp only [hsplit.split, if_neg hpositive]
  cases hrun : findRun (noiseRun : Int).toNat places 0 with
  | none => exact .inl rfl
  | some run =>
    obtain ⟨start, nines⟩ := run
    have hne := List.length_pos_iff.mpr (ne_nil_of_findRun (by decide) hrun)
    have hlength := hsplit.length_places
    have hneg : (v.magnitude precision).exponent < 0 := by omega
    have hround : v.exponent ≤ (v.magnitude precision).exponent :=
      exponent_le_round precision { v with negative := false }
    have hfew : (v.magnitude precision).digits < 10 ^ 28 :=
      lt_pow_of_digitCount_le (digitCount_round_le (by decide) _)
    have hcut := digitsValue_take_le hsplit hneg start
    have hkept : (places.take start).length ≤ places.length := List.length_take_le' _ _
    have hraised := raised_inRange (hcut.trans_lt hfew)
      (k := (places.take start).length) (by omega) nines
    dsimp only
    generalize (if nines = true then _ else _ : Decimal) = raised at hraised ⊢
    -- the sign is put back, and a zero is written plainly
    have hsigned : (if v.isBelowZero = true then raised.negate precision else raised).InRange := by
      split
      · exact negate_inRange hraised.places hraised.abs_value_lt
      · exact hraised
    generalize (if v.isBelowZero = true then _ else _ : Decimal) = signed at hsigned ⊢
    refine .inr ?_
    split
    · exact zero_inRange
    · exact hsigned

/-- Clearing noise leaves a decimal that can be represented. -/
theorem denoise_representable {v : Decimal} (hv : v.Representable) :
    (v.denoise noiseRun).Representable := by
  rcases denoise_eq_or_inRange hv.places with h | h
  · rwa [h]
  · exact h.representable

end Decimal

namespace Number

/-- The number is a fraction in lowest terms, with a positive denominator and both parts in a word,
or a decimal that can be represented. -/
def Representable : Number → Prop
  | .ratio n d => isWord n = true ∧ isWord d = true ∧ 0 < d ∧ Int.gcd n d = 1
  | .decimal v _ => v.Representable

theorem representable_ofRat {q : ℚ} (h : Fits q) : (ofRat q).Representable :=
  ⟨h.1, h.2, by exact_mod_cast q.den_pos, q.reduced⟩

/-- A number that can be represented is in lowest terms. -/
theorem Representable.lowest {x : Number} (h : x.Representable) : x.Lowest := by
  cases x with
  | ratio n d =>
    obtain ⟨hn, hd, hpos, hgcd⟩ := h
    have hfits : Fits (n / d) := by
      rw [Fits, Rat.num_div_eq_of_coprime hpos hgcd, Rat.den_div_eq_of_coprime hpos hgcd]
      exact ⟨hn, hd⟩
    rw [ratio_eq_ofRat hpos hgcd]
    exact .ratio hfits
  | decimal v a => exact .decimal v a

theorem InRange.representable {x : Number} (h : x.InRange) : x.Representable := by
  cases h with
  | ratio hq => exact representable_ofRat hq
  | decimal hv a => exact hv.representable

/-- Clearing noise leaves a number in range. -/
theorem InRange.denoise {x : Number} (h : x.InRange) : x.denoise.InRange := by
  cases h with
  | ratio hq => exact .ratio hq
  | @decimal v hv a =>
    cases a with
    | exact => exact .decimal hv .exact
    | approximate =>
      rcases Decimal.denoise_eq_or_inRange hv.places with h | h
      · rw [Number.denoise, h]
        exact .decimal hv .approximate
      · exact .decimal h .approximate

/-- Reducing a fraction gives one that can be represented, or an overflow. -/
theorem simplify_representable {x : Number} (hx : x.Representable) :
    Meets x.simplify Representable Fault.IsOverflow := by
  cases hx.lowest with
  | ratio => exact (simplify_ofRat _).inRange.imp fun _ h => h.representable
  | decimal v a => exact hx

/-- The sign of a number can be changed, unless it is the largest decimal. -/
theorem neg_representable {x : Number} (hx : x.Representable)
    (hlargest : ∀ v a, x = .decimal v a → ¬v.IsLargest) :
    Meets x.neg Representable Fault.IsOverflow := by
  cases hx.lowest with
  | ratio => exact (neg_ofRat _).inRange.imp fun _ h => h.representable
  | decimal v a => exact Decimal.negate_representable hx (hlargest v a rfl)

/-- Clearing noise leaves a number that can be represented. -/
theorem denoise_representable {x : Number} (hx : x.Representable) : x.denoise.Representable := by
  cases x with
  | ratio n d => exact hx
  | decimal v a =>
    cases a with
    | exact => exact hx
    | approximate => exact Decimal.denoise_representable hx

end Number
end Mathpad
