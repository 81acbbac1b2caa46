import Mathlib.Algebra.Order.Ring.Int
import Mathpad.Proofs.Decimals
import Mathpad.Proofs.Faults
import Mathpad.Proofs.LinearOrder
import Mathpad.Proofs.Operations
import Mathpad.Term.OfExpr

/-!
# Polynomials with integer coefficients

What it means for an expression or a term to be a polynomial whose constants are 64-bit
integers, and which integer it stands for once its variables stand for integers. The
values are taken in unbounded integers, and the zeroth power of anything is one.
-/
set_option autoImplicit false

namespace Mathpad

/-! ## Numbers -/

/-- A 64-bit integer, as a fraction over one. -/
def Number.IsWhole (x : Number) : Prop := ∃ n : Int, x = .ratio n 1 ∧ isWord n = true

/-- The integer that a whole number is. -/
def Number.numerator : Number → Int
  | .ratio n _ => n
  | .decimal .. => 0

theorem Number.IsWhole.hasDenominator {x : Number} (h : x.IsWhole) : x.HasDenominator := by
  obtain ⟨n, rfl, _⟩ := h
  exact Number.hasDenominator_ofRat n

/-! ## The two operations on whole numbers -/

namespace Operation

theorem numerator_neutral (op : Operation) : op.neutral.numerator = op.unit := by
  cases op <;> rfl

/-- The operation on whole numbers is that on the integers they are, or overflows. -/
theorem combine_whole (op : Operation) {x y : Number} (hx : x.IsWhole) (hy : y.IsWhole) :
    Meets (op.combine x y)
      (fun z => z.IsWhole ∧ z.numerator = op.act x.numerator y.numerator)
      Fault.IsOverflow := by
  obtain ⟨m, rfl, _⟩ := hx
  obtain ⟨n, rfl, _⟩ := hy
  cases op with
  | product =>
    have hmul := Number.mul_ofRat m n
    rw [← Int.cast_mul] at hmul
    exact hmul.imp fun z hz => ⟨⟨m * n, hz.1, hz.2.1⟩, by rw [hz.1]; rfl⟩
  | sum =>
    have hadd := Number.add_ofRat m n
    rw [← Int.cast_add] at hadd
    exact hadd.imp fun z hz => ⟨⟨m + n, hz.1, hz.2.1⟩, by rw [hz.1]; rfl⟩

theorem neutral_isWhole (op : Operation) : op.neutral.IsWhole := by
  cases op with
  | product => exact ⟨1, rfl, rfl⟩
  | sum => exact ⟨0, rfl, rfl⟩

/-- What counts as neutral is the neutral value. -/
theorem numerator_of_isNeutral (op : Operation) {x : Number} (hx : x.IsWhole)
    (h : op.isNeutral x = true) : x.numerator = op.unit := by
  obtain ⟨n, rfl, _⟩ := hx
  cases op with
  | product =>
    have hn : n = 1 := by simpa [isNeutral, Number.isOne] using h
    rw [hn]
    rfl
  | sum =>
    have hn : n = 0 := by simpa [isNeutral, Number.isZero] using h
    rw [hn]
    rfl

end Operation

/-! ## Expressions -/

namespace Expr

/-- The non-negative 64-bit integer that an expression is, parentheses aside. -/
def wholeConstant? : Expr → Option Nat
  | number (.ratio n 1) => if 0 ≤ n ∧ isWord n = true then some n.toNat else none
  | parentheses e => e.wholeConstant?
  | _ => none

/-- A polynomial: integer constants, variables, sums, differences, products, parentheses and
powers with a non-negative integer constant as exponent. -/
def IsPolynomial : Expr → Prop
  | number x => x.IsWhole
  | var _ => True
  | parentheses e => e.IsPolynomial
  | power base exponent => base.IsPolynomial ∧ exponent.wholeConstant?.isSome = true
  | binary .add left right => left.IsPolynomial ∧ right.IsPolynomial
  | binary .subtract left right => left.IsPolynomial ∧ right.IsPolynomial
  | binary .multiply left right => left.IsPolynomial ∧ right.IsPolynomial
  | _ => False

/-- The value of a polynomial where its variables stand for integers. -/
def valueAt (ρ : String → Int) : Expr → Int
  | number x => x.numerator
  | var name => ρ name
  | parentheses e => e.valueAt ρ
  | power base exponent => base.valueAt ρ ^ exponent.wholeConstant?.getD 0
  | binary .add left right => left.valueAt ρ + right.valueAt ρ
  | binary .subtract left right => left.valueAt ρ - right.valueAt ρ
  | binary .multiply left right => left.valueAt ρ * right.valueAt ρ
  | _ => 0

end Expr

/-! ## Terms -/

namespace Term

mutual

/-- A polynomial: integer constants, variables, sums, products, and powers with a non-negative
integer constant as exponent. -/
def IsPolynomial : Term → Prop
  | number x => x.IsWhole
  | var _ => True
  | product ts => ArePolynomials ts
  | power b e => b.IsPolynomial ∧ ∃ n : Nat, e = .number (.ratio n 1) ∧ isWord n = true
  | sum ts => ArePolynomials ts
  | call _ _ => False

/-- All of these terms are polynomials. -/
def ArePolynomials : List Term → Prop
  | [] => True
  | t :: ts => t.IsPolynomial ∧ ArePolynomials ts

end

mutual

/-- The value of a polynomial where its variables stand for integers. -/
def valueAt (ρ : String → Int) : Term → Int
  | number x => x.numerator
  | var name => ρ name
  | product ts => (valuesAt ρ ts).prod
  | power b e => b.valueAt ρ ^ (e.valueAt ρ).toNat
  | sum ts => (valuesAt ρ ts).sum
  | call _ _ => 0

/-- The values of some polynomials, in their order. -/
def valuesAt (ρ : String → Int) : List Term → List Int
  | [] => []
  | t :: ts => t.valueAt ρ :: valuesAt ρ ts

end

/-- Some terms are polynomials if and only if each of them is. -/
theorem arePolynomials_iff {ts : List Term} : ArePolynomials ts ↔ ∀ t ∈ ts, t.IsPolynomial := by
  induction ts with
  | nil => simp [ArePolynomials]
  | cons t ts ih => simp [ArePolynomials, ih]

theorem isPolynomial_apply (op : Operation) {ts : List Term} :
    (op.apply ts).IsPolynomial ↔ ∀ t ∈ ts, t.IsPolynomial := by
  cases op <;> exact arePolynomials_iff

theorem valuesAt_eq_map (ρ : String → Int) (ts : List Term) :
    valuesAt ρ ts = ts.map (valueAt ρ) := by
  induction ts with
  | nil => rfl
  | cons t ts ih => rw [valuesAt, ih, List.map_cons]

theorem valueAt_apply (ρ : String → Int) (op : Operation) (ts : List Term) :
    (op.apply ts).valueAt ρ = op.fold (ts.map (valueAt ρ)) := by
  rw [← valuesAt_eq_map]
  cases op <;> rfl

/-- What a polynomial is spliced in as is a polynomial. -/
theorem isPolynomial_lift {op : Operation} {t u : Term} (ht : t.IsPolynomial)
    (hu : u ∈ op.lift t) : u.IsPolynomial := by
  rcases Operation.mem_lift hu with rfl | ⟨ts, rfl, hmem⟩
  · exact ht
  · exact (isPolynomial_apply op).mp ht u hmem

/-- Lifting the members of a member does not change the value. -/
theorem fold_lift (ρ : String → Int) (op : Operation) (t : Term) :
    op.fold ((op.lift t).map (valueAt ρ)) = t.valueAt ρ := by
  rcases op.lift_cases t with h | ⟨ts, rfl, h⟩
  · rw [h, List.map_singleton, Operation.fold_cons, Operation.fold_nil,
      Operation.act_unit_right]
  · rw [h, valueAt_apply]

/-- The value of some constants, combined, is that of their numerators. -/
theorem fold_numbers (ρ : String → Int) (op : Operation) (numbers : List Number) :
    op.fold ((numbers.map .number).map (valueAt ρ)) = op.fold (numbers.map Number.numerator) := by
  rw [List.map_map]
  rfl

/-- The constants of a polynomial are whole. -/
theorem IsPolynomial.isWhole {t : Term} (h : t.IsPolynomial) : AllNumbers Number.IsWhole t := by
  induction t using operation_induction with
  | number x => exact h
  | var name => exact trivial
  | operation op ts ih =>
    exact (allNumbers_apply op).mpr fun t ht => ih t ht ((isPolynomial_apply op).mp h t ht)
  | power b e ihb _ =>
    obtain ⟨hb, n, rfl, hn⟩ := h
    exact ⟨ihb hb, n, rfl, hn⟩
  | call f ts _ => exact absurd h (by simp [IsPolynomial])

theorem IsPolynomial.hasDenominators {t : Term} (h : t.IsPolynomial) :
    AllNumbers Number.HasDenominator t :=
  h.isWhole.imp fun _ => Number.IsWhole.hasDenominator

/-- Comparing polynomials overflows at worst. -/
theorem order_polynomials {t u : Term} (ht : t.IsPolynomial) (hu : u.IsPolynomial) :
    Meets (order t u) (fun _ => True) Fault.IsOverflow :=
  order_overflow ht.hasDenominators hu.hasDenominators

/-- Whole numbers that compare equal are equal. -/
theorem eq_of_order_whole {x y : Number} (hx : x.IsWhole) (hy : y.IsWhole)
    (h : x.order y = .ok .eq) : x = y := by
  obtain ⟨m, rfl, hm⟩ := hx
  obtain ⟨n, rfl, hn⟩ := hy
  rw [Number.order_words hm hn] at h
  have hmn : m = n := compare_eq_iff_eq.mp (Except.ok.inj h)
  rw [hmn]

/-- Polynomials that compare equal are equal: 64-bit integers have their own decimals. -/
theorem Tied.eq_of_isPolynomial {t u : Term} (h : Tied t u) (ht : t.IsPolynomial)
    (hu : u.IsPolynomial) : t = u :=
  h.eq_of_allNumbers (fun _ _ => eq_of_order_whole) ht.isWhole hu.isWhole

end Term

/-! ## From expressions to sorted terms -/

namespace Expr

/-- The exponent of a polynomial becomes the constant that it is, parentheses aside. -/
theorem toTerm_of_wholeConstant? {e : Expr} {n : Nat} (h : e.wholeConstant? = some n) :
    e.toTerm = .number (.ratio n 1) ∧ isWord n = true := by
  induction e using wholeConstant?.induct with
  | case1 m hm =>
    rw [wholeConstant?, if_pos hm] at h
    have hmn : (n : Int) = m := by
      rw [← Option.some.inj h]
      exact Int.toNat_of_nonneg hm.1
    rw [hmn]
    exact ⟨rfl, hm.2⟩
  | case2 m hm =>
    rw [wholeConstant?, if_neg hm] at h
    cases h
  | case3 e ih => exact ih h
  | case4 e hnumber hparen =>
    rw [wholeConstant?.eq_3 e hnumber hparen] at h
    cases h

/-- The term that a polynomial stands for is a polynomial of the same value. -/
theorem IsPolynomial.toTerm {e : Expr} (h : e.IsPolynomial) :
    e.toTerm.IsPolynomial ∧ ∀ ρ, e.toTerm.valueAt ρ = e.valueAt ρ := by
  induction e using IsPolynomial.induct with
  | case1 x => exact ⟨h, fun _ => rfl⟩
  | case2 name => exact ⟨trivial, fun _ => rfl⟩
  | case3 e ih => exact ih h
  | case4 base exponent ih =>
    obtain ⟨hpoly, hvalue⟩ := ih h.1
    obtain ⟨n, hn⟩ := Option.isSome_iff_exists.mp h.2
    obtain ⟨hterm, hword⟩ := toTerm_of_wholeConstant? hn
    refine ⟨⟨hpoly, n, hterm, hword⟩, fun ρ => ?_⟩
    change base.toTerm.valueAt ρ ^ (exponent.toTerm.valueAt ρ).toNat
      = base.valueAt ρ ^ exponent.wholeConstant?.getD 0
    rw [hvalue, hterm, hn]
    rfl
  | case5 left right ihl ihr =>
    obtain ⟨hl, hlv⟩ := ihl h.1
    obtain ⟨hr, hrv⟩ := ihr h.2
    refine ⟨⟨hl, hr, trivial⟩, fun ρ => ?_⟩
    change left.toTerm.valueAt ρ + (right.toTerm.valueAt ρ + 0)
      = left.valueAt ρ + right.valueAt ρ
    rw [hlv, hrv, add_zero]
  | case6 left right ihl ihr =>
    obtain ⟨hl, hlv⟩ := ihl h.1
    obtain ⟨hr, hrv⟩ := ihr h.2
    -- a difference becomes a sum with minus one times the right operand
    refine ⟨⟨hl, ⟨⟨-1, rfl, rfl⟩, hr, trivial⟩, trivial⟩, fun ρ => ?_⟩
    change left.toTerm.valueAt ρ + (-1 * (right.toTerm.valueAt ρ * 1) + 0)
      = left.valueAt ρ - right.valueAt ρ
    rw [hlv, hrv]
    ring
  | case7 left right ihl ihr =>
    obtain ⟨hl, hlv⟩ := ihl h.1
    obtain ⟨hr, hrv⟩ := ihr h.2
    refine ⟨⟨hl, hr, trivial⟩, fun ρ => ?_⟩
    change left.toTerm.valueAt ρ * (right.toTerm.valueAt ρ * 1)
      = left.valueAt ρ * right.valueAt ρ
    rw [hlv, hrv, mul_one]
  | case8 e hnumber hvar hparen hpower hadd hsub hmul =>
    rw [IsPolynomial.eq_8 e hnumber hvar hparen hpower hadd hsub hmul] at h
    exact absurd h id

end Expr

end Mathpad
