import Mathpad.Proofs.Faults
import Mathpad.Proofs.Leaves

/-!
# Denominators

Reduction makes no zero denominators, and on terms without them the only faults it
reports are those with a message. A refusal to go on is left open here.
-/
set_option autoImplicit false

namespace Mathpad.Term

/-- No fraction in the term has the denominator zero. -/
def HasDenominators (t : Term) : Prop := AllNumbers Number.HasDenominator t

/-- A fault with a message, or a refusal to go on. -/
def Expected (f : Fault) : Prop := f.IsMaths ∨ f = .mishap .endless

variable {P : Number → Prop}

/-- A requirement on the numbers of a term alone. -/
def numbersOnly (P : Number → Prop) : Leaves := ⟨P, fun _ => True, fun _ _ => True⟩

/-- Where only numbers are looked at, a term is made of what is required if all its numbers are. -/
theorem in_numbersOnly_iff {t : Term} : (numbersOnly P).In t ↔ AllNumbers P t := by
  induction t using operation_induction with
  | number x => exact ⟨fun h => h.here, fun h => Leaves.in_number h⟩
  | var name => exact ⟨fun _ => trivial, fun _ => ⟨trivial, fun u hu => by simp [parts] at hu⟩⟩
  | operation op ts ih =>
    rw [allNumbers_apply]
    constructor
    · exact fun h t ht => (ih t ht).mp (h.members op t ht)
    · exact fun h => Leaves.in_apply op fun t ht => (ih t ht).mpr (h t ht)
  | power b e ihb ihe =>
    constructor
    · exact fun h => ⟨ihb.mp h.base, ihe.mp h.exponent⟩
    · exact fun h => Leaves.in_power (ihb.mpr h.1) (ihe.mpr h.2)
  | call f ts ih =>
    rw [show AllNumbers P (call f ts) ↔ _ from allNumbersIn_iff]
    constructor
    · exact fun h t ht => (ih t ht).mp (h.inside t ht)
    · exact fun h => ⟨trivial, fun t ht => (ih t ht).mpr (h t ht)⟩

/-- Arithmetic on fractions with denominators gives fractions with denominators, and no
other faults than expected. -/
theorem denominators_closed : (numbersOnly Number.HasDenominator).Closed Expected where
  neutral := neutral_hasDenominator
  combine op x y hx hy := (combine_meets op x y).mono (fun _ h => h hx hy) fun _ => Or.inl
  powInt {x} n hx := (x.powInt_meets n).mono (fun _ h => h hx) fun _ => Or.inl
  pow {x v a} hx _ := (x.pow_decimal_meets v a).mono (fun _ h => h hx) fun _ => Or.inl
  split {n _} h := ⟨Number.hasDenominator_ofRat n, h⟩
  whole hx := Number.whole?_meets hx _
  order {t u} _ _ := (order_isMaths t u).mono (fun _ _ => trivial) fun _ => Or.inl

/-- Reduction makes no zero denominators and reports no other faults than expected. -/
theorem reduce_keepsDenominators {t : Term} (ht : HasDenominators t) :
    Meets t.reduce (fun r => HasDenominators r.term) Expected :=
  (denominators_closed.reduce (Or.inr rfl) t (in_numbersOnly_iff.mpr ht)).imp
    fun _ hr => in_numbersOnly_iff.mp hr

end Mathpad.Term
