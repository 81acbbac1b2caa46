import Mathlib.Algebra.BigOperators.Ring.List
import Mathlib.Tactic.Ring
import Mathpad.Proofs.Polynomials
import Mathpad.Proofs.Termination

/-!
# Reduction keeps the value of a polynomial

Every rule of reduction turns a polynomial into a polynomial of the same value, whatever
integers its variables stand for, unless it overflows. Grouping like members is sound
because polynomials that compare equal are equal. Exponents stay constants: an exponent
that a rule puts together is a sum or a product of numbers, and that reduces to a number.
-/
set_option autoImplicit false

namespace Mathpad.Term

/-- A polynomial with the values of another one. -/
structure SameValue (t u : Term) : Prop where
  isPolynomial : u.IsPolynomial
  valueAt_eq : ∀ ρ, u.valueAt ρ = t.valueAt ρ

theorem SameValue.trans {t u v : Term} (h : SameValue t u) (h' : SameValue u v) :
    SameValue t v :=
  ⟨h'.isPolynomial, fun ρ => (h'.valueAt_eq ρ).trans (h.valueAt_eq ρ)⟩

/-- A refusal to go on, or an overflow. -/
def EndlessOrOverflow (f : Fault) : Prop := f = .mishap .endless ∨ f.IsOverflow

theorem endlessOrOverflow {f : Fault} (h : f.IsOverflow) : EndlessOrOverflow f := Or.inr h

/-- The reductions that are asked for keep the value of polynomials. -/
def KeepsValue (f : Term → Outcome Reduced) : Prop :=
  ∀ u, u.IsPolynomial →
    Meets (f u) (fun r => u.reduce = .ok r ∧ SameValue u r.term) EndlessOrOverflow

variable {f : Term → Outcome Reduced}

theorem order_keeps {t u : Term} (ht : t.IsPolynomial) (hu : u.IsPolynomial) :
    Meets (order t u) (fun _ => True) EndlessOrOverflow :=
  (order_polynomials ht hu).mono (fun _ h => h) fun _ => endlessOrOverflow

/-! ## Members -/

/-- The members of a sum or a product of the polynomials `ts`. -/
structure MembersKept (op : Operation) (ts members : List Term) : Prop where
  isPolynomial : ∀ u ∈ members, u.IsPolynomial
  fold_eq : ∀ ρ, op.fold (members.map (valueAt ρ)) = op.fold (ts.map (valueAt ρ))

/-- What is spliced into an operation has the values of what it is spliced in for. -/
theorem fold_lifted (ρ : String → Int) (op : Operation) {ts : List Term} {rs : List Reduced}
    (h : List.Forall₂ (fun t r => SameValue t r.term) ts rs) :
    op.fold ((rs.flatMap fun r => op.lift r.term).map (valueAt ρ))
      = op.fold (ts.map (valueAt ρ)) := by
  induction h with
  | nil => rfl
  | cons hr _ ih =>
    rw [List.flatMap_cons, List.map_append, Operation.fold_append, ih, fold_lift,
      hr.valueAt_eq, List.map_cons, Operation.fold_cons]

/-- Reducing the members of an operation keeps the values, as sorting and splicing in do. -/
theorem reduceMembers_keeps (hf : KeepsValue f) (op : Operation) {ts : List Term}
    (hts : ∀ t ∈ ts, t.IsPolynomial) :
    Meets (reduceMembers f op ts) (fun out => MembersKept op ts out.1) EndlessOrOverflow := by
  refine (reduceMembers_meets op (P := IsPolynomial) (Q := fun t r => SameValue t r.term)
    (fun t u => order_keeps) hts fun t ht => ?_).imp fun out hout => ?_
  · refine (hf t (hts t ht)).imp fun r hr => ⟨hr.2, fun u hu => ?_⟩
    exact isPolynomial_lift hr.2.isPolynomial hu
  · obtain ⟨sorted, rs, hred⟩ := hout
    refine ⟨fun u hu => ?_, fun ρ => ?_⟩
    · obtain ⟨r, hr, hu⟩ := List.mem_flatMap.mp (hred.members_perm.subset hu)
      obtain ⟨t, _, hsame⟩ := exists_of_forall₂_right hred.reduced hr
      exact isPolynomial_lift hsame.isPolynomial hu
    · rw [op.fold_perm (hred.members_perm.map (valueAt ρ)), fold_lifted ρ op hred.reduced,
        op.fold_perm (hred.sorted_perm.map (valueAt ρ))]

/-! ## Numbers -/

/-- The numbers of a sum or a product, combined into one or none. -/
structure NumbersKept (op : Operation) (numbers merged : List Number) : Prop where
  isWhole : ∀ x ∈ merged, x.IsWhole
  fold_eq : op.fold (merged.map Number.numerator) = op.fold (numbers.map Number.numerator)

/-- Whole constants are combined exactly, or overflow. -/
theorem total_keeps (op : Operation) {numbers : List Number}
    (hnumbers : ∀ x ∈ numbers, x.IsWhole) {start : Number} (hstart : start.IsWhole) :
    Meets (numbers.foldlM op.combine start)
      (fun total => total.IsWhole ∧
        total.numerator = op.act start.numerator (op.fold (numbers.map Number.numerator)))
      Fault.IsOverflow := by
  induction numbers generalizing start with
  | nil =>
    refine ⟨hstart, ?_⟩
    rw [List.map_nil, Operation.fold_nil, Operation.act_unit_right]
  | cons x xs ih =>
    rw [List.foldlM_cons]
    refine (op.combine_whole hstart (hnumbers x (by simp))).bind fun y hy => ?_
    refine (ih (fun z hz => hnumbers z (by simp [hz])) hy.1).imp fun total htotal => ?_
    refine ⟨htotal.1, ?_⟩
    rw [htotal.2, hy.2, Operation.act_assoc, List.map_cons, Operation.fold_cons]

/-- Merging the constants of an operation keeps its values. -/
theorem mergeNumbers_keeps (op : Operation) {numbers : List Number}
    (hnumbers : ∀ x ∈ numbers, x.IsWhole) (alone : Bool) :
    Meets (mergeNumbers op numbers alone) (fun out => NumbersKept op numbers out.1)
      Fault.IsOverflow := by
  unfold mergeNumbers
  by_cases hempty : numbers.isEmpty = true
  · rw [if_pos hempty]
    have hnil : numbers = [] := List.isEmpty_iff.mp hempty
    rw [hnil]
    exact ⟨by simp, rfl⟩
  · rw [if_neg hempty]
    refine (total_keeps op hnumbers op.neutral_isWhole).bind fun total htotal => ?_
    obtain ⟨hwhole, htotal⟩ := htotal
    rw [Operation.numerator_neutral, Operation.act_unit] at htotal
    -- the neutral element is left out, unless there is nothing but constants
    by_cases hneutral : (op.isNeutral total && !alone) = true
    · rw [if_pos hneutral]
      refine ⟨by simp, ?_⟩
      rw [Bool.and_eq_true] at hneutral
      rw [← htotal, op.numerator_of_isNeutral hwhole hneutral.1]
      exact op.fold_nil
    · rw [if_neg hneutral]
      by_cases hlong : 1 < numbers.length
      · rw [if_pos hlong]
        refine ⟨fun x hx => ?_, ?_⟩
        · obtain rfl : x = total := by simpa using hx
          exact hwhole
        · rw [List.map_singleton, Operation.fold_cons, Operation.fold_nil,
            Operation.act_unit_right, htotal]
      · rw [if_neg hlong]
        exact ⟨hnumbers, rfl⟩

/-- A number that absorbs the others makes the whole product zero. -/
theorem fold_of_absorbs {op : Operation} {numbers : List Number}
    (hnumbers : ∀ x ∈ numbers, x.IsWhole) (h : numbers.any op.absorbs = true) :
    op.fold (numbers.map Number.numerator) = 0 ∧ ∀ a : Int, op.act 0 a = 0 := by
  obtain ⟨x, hx, habs⟩ := List.any_eq_true.mp h
  obtain ⟨n, rfl, _⟩ := hnumbers x hx
  cases op with
  | product =>
    have hn : n = 0 := by simpa [Operation.absorbs, Number.isZero] using habs
    refine ⟨List.prod_eq_zero (List.mem_map.mpr ⟨_, hx, ?_⟩), fun a => zero_mul a⟩
    rw [hn]
    rfl
  | sum => cases habs

/-! ## Like members -/

/-- What is put in the place of a group of like members has their value. -/
def RunKept {ι : Type} (whole : ι → Term) (op : Operation) (run : List ι) (out : Option Term) :
    Prop :=
  (∀ u ∈ out, u.IsPolynomial) ∧
    ∀ ρ, op.fold (out.toList.map (valueAt ρ)) = op.fold ((run.map whole).map (valueAt ρ))

/-- Where each group of like items keeps its values, so do all of them together. -/
theorem RunsMerged.keeps {ι : Type} {whole : ι → Term} {op : Operation} {items : List ι}
    {combined : List Term} (h : RunsMerged whole (RunKept whole op) items (some combined))
    (hitems : ∀ a ∈ items, (whole a).IsPolynomial) :
    MembersKept op (items.map whole) combined := by
  refine ⟨h.forall_mem hitems fun _ _ hq => hq.1, fun ρ => ?_⟩
  obtain ⟨runs, outs, hperm, -, hout, rfl⟩ := h
  -- the groups together are the items in another order
  rw [← op.fold_perm ((hperm.map whole).map (valueAt ρ))]
  clear hperm
  induction hout with
  | nil => rfl
  | @cons run out runs outs hhead _ ih =>
    have hfilter : (out :: outs).filterMap id = out.toList ++ outs.filterMap id := by
      cases out <;> rfl
    have hrun : op.fold (out.toList.map (valueAt ρ)) =
        op.fold ((run.map whole).map (valueAt ρ)) := by
      rcases hhead with ⟨only, hrun, hout⟩ | ⟨_, _, hvalue⟩
      · rw [hrun, hout]
        rfl
      · exact hvalue ρ
    rw [hfilter, List.map_append, Operation.fold_append, ih, hrun, List.flatten_cons,
      List.map_append, List.map_append, Operation.fold_append]

/-- A sum or a product of numbers reduces to a number. -/
theorem exists_number_of_reduce {t : Term} {r : Reduced} (h : t.reduce = .ok r)
    (ht : t.depth = 0) : ∃ x, r.term = .number x := by
  have hshrunk := (reduce_shrinks t).of_ok h
  have hdepth := hshrunk.depth_le
  exact isNumber_iff.mp (hshrunk.compact.isNumber_of_depth (by omega))

/-- A constant exponent. -/
def IsExponent (e : Term) : Prop := ∃ n : Nat, e = .number (.ratio n 1) ∧ isWord n = true

theorem IsExponent.isPolynomial {e : Term} (h : IsExponent e) : e.IsPolynomial := by
  obtain ⟨n, rfl, hn⟩ := h
  exact ⟨n, rfl, hn⟩

theorem IsExponent.nonneg {e : Term} (h : IsExponent e) (ρ : String → Int) : 0 ≤ e.valueAt ρ := by
  obtain ⟨n, rfl, _⟩ := h
  exact Int.natCast_nonneg n

/-- A number whose value is not negative is a constant exponent. -/
theorem isExponent_of_number {x : Number} (h : (number x).IsPolynomial)
    (hn : 0 ≤ x.numerator) : IsExponent (number x) := by
  obtain ⟨n, rfl, hword⟩ := h
  obtain ⟨k, rfl⟩ : ∃ k : Nat, n = k := ⟨n.toNat, (Int.toNat_of_nonneg hn).symm⟩
  exact ⟨k, rfl, hword⟩

/-- Constant exponents are combined into a constant exponent. -/
theorem combined_isExponent (op : Operation) {es : List Term} {r : Reduced}
    (hes : ∀ e ∈ es, IsExponent e) (hr : (op.apply es).reduce = .ok r)
    (hsame : SameValue (op.apply es) r.term)
    (hnonneg : ∀ ρ, 0 ≤ (op.apply es).valueAt ρ) : IsExponent r.term := by
  have hnum : es.all isNumber = true := by
    rw [List.all_eq_true]
    intro e he
    obtain ⟨n, rfl, _⟩ := hes e he
    rfl
  obtain ⟨x, hx⟩ := exists_number_of_reduce hr (by rw [depth_apply, if_pos hnum])
  rw [hx] at hsame ⊢
  refine isExponent_of_number hsame.isPolynomial ?_
  -- a number has one value, so any assignment will do
  have hvalue := hsame.valueAt_eq fun _ => 0
  change x.numerator = _ at hvalue
  rw [hvalue]
  exact hnonneg _

/-! ### Factors -/

/-- A factor of a polynomial as base and exponent. -/
structure PolynomialFactor (a : Factor) : Prop where
  base : a.base.IsPolynomial
  exponent : IsExponent a.exponent
  whole : ∀ ρ, a.whole.valueAt ρ = a.base.valueAt ρ ^ (a.exponent.valueAt ρ).toNat

/-- A polynomial is a power of a polynomial, with the exponent one if it is nothing else. -/
theorem IsPolynomial.factor {t : Term} (h : t.IsPolynomial) :
    PolynomialFactor (Factor.ofTerm t) := by
  have hone : IsExponent (.number Number.one) := ⟨1, rfl, rfl⟩
  cases t with
  | power b e => exact ⟨h.1, h.2, fun ρ => rfl⟩
  | _ => exact ⟨h, hone, fun ρ => (pow_one _).symm⟩

/-- Powers of one base are multiplied by adding their exponents. -/
theorem prod_of_factors (ρ : String → Int) {base : Term} {run : List Factor}
    (hrun : ∀ a ∈ run, PolynomialFactor a ∧ a.base = base) :
    ((run.map (·.whole)).map (valueAt ρ)).prod
        = base.valueAt ρ ^ (((run.map (·.exponent)).map (valueAt ρ)).sum).toNat ∧
      0 ≤ ((run.map (·.exponent)).map (valueAt ρ)).sum := by
  induction run with
  | nil => simp
  | cons a run ih =>
    obtain ⟨hvalue, hnonneg⟩ := ih fun b hb => hrun b (by simp [hb])
    obtain ⟨ha, hbase⟩ := hrun a (by simp)
    have hexp := ha.exponent.nonneg ρ
    simp only [List.map_cons, List.prod_cons, List.sum_cons]
    refine ⟨?_, by omega⟩
    rw [hvalue, ha.whole, hbase, ← pow_add, Int.toNat_add hexp hnonneg]

/-- Merging powers of one base adds their exponents. -/
theorem mergeFactors_keeps (hf : KeepsValue f) {items : List Factor}
    (hitems : ∀ a ∈ items, PolynomialFactor a) {first : Factor} {more : List Factor}
    (hsub : (first :: more).Subperm items) (htied : ∀ a ∈ more, Tied first.base a.base) :
    Meets (mergeFactors f first (first :: more)) (RunKept Factor.whole .product (first :: more))
      EndlessOrOverflow := by
  -- polynomials that compare equal are equal, so the group is one of powers of one base
  have hrun : ∀ a ∈ first :: more, PolynomialFactor a ∧ a.base = first.base := by
    intro a ha
    have hpoly := hitems a (hsub.subset ha)
    refine ⟨hpoly, ?_⟩
    rcases List.mem_cons.mp ha with rfl | hmem
    · rfl
    · have hfirst := hitems first (hsub.subset (by simp))
      exact ((htied a hmem).eq_of_isPolynomial hfirst.base hpoly.base).symm
  have hexps : ∀ e ∈ (first :: more).map (·.exponent), IsExponent e := by
    intro e he
    obtain ⟨a, ha, rfl⟩ := List.mem_map.mp he
    exact (hrun a ha).1.exponent
  have hsum : (sum ((first :: more).map (·.exponent))).IsPolynomial :=
    (isPolynomial_apply .sum).mpr fun e he => (hexps e he).isPolynomial
  have hsumvalue : ∀ ρ, (sum ((first :: more).map (·.exponent))).valueAt ρ
      = (((first :: more).map (·.exponent)).map (valueAt ρ)).sum :=
    fun ρ => valueAt_apply ρ .sum _
  unfold mergeFactors
  refine (hf _ hsum).bind fun x hx => ?_
  -- the exponents are constants, and so is their sum
  have hxexp : IsExponent x.term := by
    refine combined_isExponent .sum hexps hx.1 hx.2 fun ρ => ?_
    exact le_of_le_of_eq (prod_of_factors ρ hrun).2 (hsumvalue ρ).symm
  have hbase := (hrun first (by simp)).1.base
  refine (hf (power first.base x.term) ⟨hbase, hxexp⟩).bind fun p hp => ?_
  refine ⟨fun u hu => ?_, fun ρ => ?_⟩
  · rw [← Option.some.inj hu]
    exact hp.2.isPolynomial
  · have hpower : p.term.valueAt ρ = first.base.valueAt ρ ^ (x.term.valueAt ρ).toNat :=
      hp.2.valueAt_eq ρ
    change p.term.valueAt ρ * 1 = (((first :: more).map Factor.whole).map (valueAt ρ)).prod
    rw [mul_one, hpower, hx.2.valueAt_eq, hsumvalue, (prod_of_factors ρ hrun).1]

/-! ### Multiples -/

/-- A member of a sum as coefficient and term. -/
structure PolynomialMultiple (a : Multiple) : Prop where
  term : a.term.IsPolynomial
  coefficient : a.coefficient.IsWhole
  whole : ∀ ρ, a.whole.valueAt ρ = a.coefficient.numerator * a.term.valueAt ρ

/-- A polynomial is a multiple of a polynomial, with the coefficient one if it is nothing else. -/
theorem IsPolynomial.multiple {t : Term} (h : t.IsPolynomial) :
    PolynomialMultiple (Multiple.ofTerm t) := by
  unfold Multiple.ofTerm
  split
  · rename_i k u
    refine ⟨h.2.1, h.1, fun ρ => ?_⟩
    change k.numerator * (u.valueAt ρ * 1) = _
    rw [mul_one]
  · exact ⟨h.2, h.1, fun ρ => rfl⟩
  · exact ⟨h, ⟨1, rfl, rfl⟩, fun ρ => (one_mul _).symm⟩

/-- Putting a coefficient in front of a polynomial multiplies its values; a coefficient of zero
leaves nothing. -/
theorem multiple?_keeps {k : Number} (hk : k.IsWhole) {t : Term} (ht : t.IsPolynomial) :
    (∀ u ∈ multiple? k t, u.IsPolynomial) ∧
      ∀ ρ, ((multiple? k t).toList.map (valueAt ρ)).sum = k.numerator * t.valueAt ρ := by
  unfold multiple?
  by_cases hzero : k.isZero = true
  · rw [if_pos hzero]
    refine ⟨nofun, fun ρ => ?_⟩
    rw [Operation.numerator_of_isNeutral .sum hk hzero]
    exact (zero_mul _).symm
  · rw [if_neg hzero]
    by_cases hone : k.isOne = true
    · rw [if_pos hone]
      refine ⟨fun u hu => ?_, fun ρ => ?_⟩
      · rw [← Option.some.inj hu]
        exact ht
      · rw [Operation.numerator_of_isNeutral .product hk hone]
        change t.valueAt ρ + 0 = 1 * t.valueAt ρ
        rw [add_zero, one_mul]
    · rw [if_neg hone, Operation.factors_eq_lift]
      refine ⟨fun u hu => ?_, fun ρ => ?_⟩
      · rw [← Option.some.inj hu]
        exact ⟨hk, arePolynomials_iff.mpr fun v hv => isPolynomial_lift ht hv⟩
      · have hlift := fold_lift ρ .product t
        change k.numerator * (valuesAt ρ (Operation.product.lift t)).prod + 0 = _
        rw [add_zero, valuesAt_eq_map]
        change k.numerator * Operation.product.fold _ = _
        rw [hlift]

/-- Multiples of one polynomial are added by adding their coefficients. -/
theorem sum_of_multiples (ρ : String → Int) {term : Term} {run : List Multiple}
    (hrun : ∀ a ∈ run, PolynomialMultiple a ∧ a.term = term) :
    ((run.map (·.whole)).map (valueAt ρ)).sum
      = ((run.map (·.coefficient)).map Number.numerator).sum * term.valueAt ρ := by
  induction run with
  | nil => simp
  | cons a run ih =>
    obtain ⟨ha, hterm⟩ := hrun a (by simp)
    simp only [List.map_cons, List.sum_cons]
    rw [ih fun b hb => hrun b (by simp [hb]), ha.whole, hterm]
    ring

/-- Merging multiples of one polynomial adds their coefficients. -/
theorem mergeMultiples_keeps {items : List Multiple}
    (hitems : ∀ a ∈ items, PolynomialMultiple a) {first : Multiple} {more : List Multiple}
    (hsub : (first :: more).Subperm items) (htied : ∀ a ∈ more, Tied first.term a.term) :
    Meets (mergeMultiples first (first :: more)) (RunKept Multiple.whole .sum (first :: more))
      EndlessOrOverflow := by
  -- in the same way, the group is one of multiples of one term
  have hrun : ∀ a ∈ first :: more, PolynomialMultiple a ∧ a.term = first.term := by
    intro a ha
    have hpoly := hitems a (hsub.subset ha)
    refine ⟨hpoly, ?_⟩
    rcases List.mem_cons.mp ha with rfl | hmem
    · rfl
    · have hfirst := hitems first (hsub.subset (by simp))
      exact ((htied a hmem).eq_of_isPolynomial hfirst.term hpoly.term).symm
  have hcoefs : ∀ k ∈ (first :: more).map (·.coefficient), k.IsWhole := by
    intro k hk
    obtain ⟨a, ha, rfl⟩ := List.mem_map.mp hk
    exact (hrun a ha).1.coefficient
  unfold mergeMultiples
  refine ((total_keeps .sum hcoefs (Operation.neutral_isWhole .sum)).mono (fun _ h => h)
    fun _ => endlessOrOverflow).bind fun k hk => ?_
  obtain ⟨hwhole, htotal⟩ := hk
  rw [Operation.numerator_neutral, Operation.act_unit] at htotal
  obtain ⟨hpoly, hvalue⟩ := multiple?_keeps hwhole (hrun first (by simp)).1.term
  refine ⟨hpoly, fun ρ => ?_⟩
  change ((multiple? k first.term).toList.map (valueAt ρ)).sum
    = (((first :: more).map Multiple.whole).map (valueAt ρ)).sum
  rw [hvalue, sum_of_multiples ρ hrun, htotal]
  rfl

/-- Merging what is alike keeps the values, in products and in sums. -/
theorem mergeLike_keeps (hf : KeepsValue f) {rest : List Term}
    (hrest : ∀ u ∈ rest, u.IsPolynomial) (op : Operation) :
    Meets (mergeLike f op rest)
      (fun out => ∀ combined, out = some combined → MembersKept op rest combined)
      EndlessOrOverflow := by
  cases op with
  | product =>
    have hitems : ∀ a ∈ rest.map Factor.ofTerm, PolynomialFactor a := by
      intro a ha
      obtain ⟨u, hu, rfl⟩ := List.mem_map.mp ha
      exact (hrest u hu).factor
    have hwhole := map_whole Factor.ofTerm_whole rest
    refine (mergeRuns_meets (P := PolynomialFactor) (Q := RunKept Factor.whole .product)
      (fun a b ha hb => order_keeps ha.base hb.base) hitems
      fun first more _ hsub htied => ?_).imp fun out hout combined hc => ?_
    · exact mergeFactors_keeps hf hitems hsub htied
    · rw [hc] at hout
      have hkept := hout.keeps (forall_whole Factor.ofTerm_whole hrest)
      rwa [hwhole] at hkept
  | sum =>
    have hitems : ∀ a ∈ rest.map Multiple.ofTerm, PolynomialMultiple a := by
      intro a ha
      obtain ⟨u, hu, rfl⟩ := List.mem_map.mp ha
      exact (hrest u hu).multiple
    have hwhole := map_whole Multiple.ofTerm_whole rest
    refine (mergeRuns_meets (P := PolynomialMultiple) (Q := RunKept Multiple.whole .sum)
      (fun a b ha hb => order_keeps ha.term hb.term) hitems
      fun first more _ hsub htied => ?_).imp fun out hout combined hc => ?_
    · exact mergeMultiples_keeps hitems hsub htied
    · rw [hc] at hout
      have hkept := hout.keeps (forall_whole Multiple.ofTerm_whole hrest)
      rwa [hwhole] at hkept

end Mathpad.Term
