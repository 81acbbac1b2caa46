import Mathpad.Proofs.Arithmetic
import Mathpad.Proofs.Denominators

/-!
# Numbers as they are stored

A fraction is stored in lowest terms with both parts in a word, and a decimal with a
coefficient and places that a literal could have. Arithmetic gives such numbers only, and
so reduction keeps them.
-/
set_option autoImplicit false

namespace Mathpad

namespace Decimal

/-- The coefficient and the places of a literal. Only literals may have more digits than the
precision, and they have no sign. -/
structure Stored (v : Decimal) : Prop where
  digits : v.digits ≤ maxMagnitude
  places : -(maxPlaces : Int) ≤ v.exponent
  sign : v.negative = true → digitCount v.digits ≤ precision

/-- A decimal in range can be stored. -/
theorem InRange.stored {v : Decimal} (h : v.InRange) : v.Stored := by
  refine ⟨?_, h.places, fun _ => h.digits⟩
  have hlt : v.digits < 10 ^ precision := lt_pow_of_digitCount_le h.digits
  have hmax : 10 ^ precision ≤ maxMagnitude := by decide
  omega

end Decimal

namespace Number

/-- A fraction in lowest terms within the words, or a decimal with a literal's coefficient
and places. -/
inductive Stored : Number → Prop
  | ratio {q : ℚ} (h : Fits q) : Stored (ofRat q)
  | decimal {v : Decimal} (h : v.Stored) (a : Accuracy) : Stored (.decimal v a)

/-- A number that can be stored is in lowest terms. -/
theorem Stored.lowest {x : Number} (h : x.Stored) : x.Lowest := by
  cases h with
  | ratio hq => exact .ratio hq
  | decimal _ a => exact .decimal _ a

theorem InRange.stored {x : Number} (h : x.InRange) : x.Stored := by
  cases h with
  | ratio hq => exact .ratio hq
  | decimal hv a => exact .decimal hv.stored a

/-- What an operation gives is stored. -/
theorem stored_of_inRange {o : Outcome Number} {E : Fault → Prop} (h : Meets o InRange E) :
    Meets o Stored fun _ => True :=
  h.mono (fun _ hx => hx.stored) fun _ _ => trivial

/-- Both parts of a stored fraction are stored. -/
theorem stored_split {n d : Int} (h : (Number.ratio n d).Stored) :
    (Number.ratio n 1).Stored ∧ (Number.ratio 1 d).Stored := by
  generalize hx : Number.ratio n d = x at h
  cases h with
  | @ratio q hq =>
    obtain ⟨rfl, rfl⟩ := Number.ratio.inj hx
    have hpos : (0 : Int) < q.den := by exact_mod_cast q.den_pos
    have hgcd : Int.gcd 1 q.den = 1 := Int.one_gcd
    have hfits : Fits (((1 : Int) : ℚ) / ((q.den : Int) : ℚ)) := by
      rw [Fits, Rat.num_div_eq_of_coprime hpos hgcd, Rat.den_div_eq_of_coprime hpos hgcd]
      exact ⟨rfl, hq.2⟩
    refine ⟨.ratio (q := (q.num : ℚ)) ⟨hq.1, rfl⟩, ?_⟩
    rw [ratio_eq_ofRat hpos hgcd]
    exact .ratio hfits
  | decimal => cases hx

end Number

namespace Term

/-- Reduction can keep numbers storable, whatever is required of names and calls: its arithmetic
gives numbers in range. -/
theorem stored_closed (name : String → Prop) (call : NamedFunction → Nat → Prop) :
    (Leaves.mk Number.Stored name call).Closed fun _ => True where
  neutral op := by
    cases op with
    | product => exact .ratio (q := 1) Number.fits_one
    | sum => exact .ratio (q := 0) ⟨rfl, rfl⟩
  combine op x y hx hy := by
    cases op with
    | product => exact Number.stored_of_inRange (Number.mul_inRange hx.lowest hy.lowest)
    | sum => exact Number.stored_of_inRange (Number.add_inRange hx.lowest hy.lowest)
  powInt n hx := Number.stored_of_inRange (Number.powInt_inRange hx.lowest n)
  pow hx he := Number.stored_of_inRange (Number.pow_inRange hx.lowest he.lowest)
  split h := Number.stored_split h
  whole _ := (meets_true _)
  order _ _ := (meets_true _)

end Term
end Mathpad
