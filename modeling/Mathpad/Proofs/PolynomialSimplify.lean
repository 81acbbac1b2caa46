import Mathpad.Proofs.PolynomialReduction

/-!
# Simplifying a polynomial

The steps of reduction together, and before them flattening and sorting: simplifying a
polynomial gives a polynomial of the same value, or overflows.
-/
set_option autoImplicit false

namespace Mathpad.Term

variable {f : Term → Outcome Reduced}

/-! ## Sums and products -/

/-- Putting an operation together from its members keeps the values. -/
theorem ofMembers_keeps (op : Operation) {us : List Term} (changed : Bool)
    (hus : ∀ u ∈ us, u.IsPolynomial) :
    (ofMembers op us changed).term.IsPolynomial ∧
      ∀ ρ, (ofMembers op us changed).term.valueAt ρ = op.fold (us.map (valueAt ρ)) := by
  match us, hus with
  | [], _ => exact ⟨op.neutral_isWhole, fun ρ => op.numerator_neutral.trans op.fold_nil.symm⟩
  | [u], hus =>
    refine ⟨hus u (by simp), fun ρ => ?_⟩
    rw [List.map_singleton, Operation.fold_cons, Operation.fold_nil,
      Operation.act_unit_right]
    rfl
  | u :: v :: us, hus => exact ⟨(isPolynomial_apply op).mpr hus, fun ρ => valueAt_apply ρ op _⟩

/-- One step of reducing an operation keeps the values. -/
theorem reduceOperation_keeps (hf : KeepsValue f) (op : Operation) {ts : List Term}
    (hts : ∀ t ∈ ts, t.IsPolynomial) :
    Meets (reduceOperation f op ts) (fun r => SameValue (op.apply ts) r.term)
      EndlessOrOverflow := by
  refine reduceOperation_meets (M := fun members _ => MembersKept op ts members)
    (reduceMembers_keeps hf op hts) (fun numbers rest _ hkept _ hzero => ?_)
    fun numbers rest changed hkept _ _ => ?_
  -- the value of the numbers and that of the rest make up the value of the whole
  all_goals
    have hnumbers : ∀ x ∈ numbers, x.IsWhole := fun x hx =>
      hkept.isPolynomial (.number x) (by simp [hx])
    have hvalue : ∀ ρ, (op.apply ts).valueAt ρ
        = op.act (op.fold (numbers.map Number.numerator)) (op.fold (rest.map (valueAt ρ))) := by
      intro ρ
      rw [valueAt_apply, ← hkept.fold_eq, List.map_append, Operation.fold_append, fold_numbers]
  · obtain ⟨hfold, hact⟩ := fold_of_absorbs hnumbers hzero
    refine ⟨⟨0, rfl, rfl⟩, fun ρ => ?_⟩
    rw [hvalue, hfold, hact]
    rfl
  · have hrest : ∀ u ∈ rest, u.IsPolynomial := fun u hu => hkept.isPolynomial u (by simp [hu])
    refine (mergeNumbers_keeps op hnumbers rest.isEmpty).mono (fun merged hmerged => ?_)
      fun _ => endlessOrOverflow
    obtain ⟨hwhole, hfold⟩ := hmerged
    have hall : ∀ us : List Term, (∀ u ∈ us, u.IsPolynomial) →
        ∀ u ∈ merged.1.map Term.number ++ us, u.IsPolynomial := fun us hus =>
      forall_numbers_append hwhole hus
    refine (mergeLike_keeps hf hrest op).imp fun like hlike => ⟨fun combined hc => ?_, fun _ => ?_⟩
    · obtain ⟨hcpoly, hcfold⟩ := hlike combined hc
      refine (hf _ ((isPolynomial_apply op).mpr (hall combined hcpoly))).imp fun r hr => ?_
      refine ⟨hr.2.isPolynomial, fun ρ => ?_⟩
      rw [hvalue, ← hfold, ← hcfold, ← fold_numbers ρ, ← Operation.fold_append,
        ← List.map_append, ← valueAt_apply]
      exact hr.2.valueAt_eq ρ
    · obtain ⟨hpoly, hsame⟩ := ofMembers_keeps op (changed || merged.2) (hall rest hrest)
      refine ⟨hpoly, fun ρ => ?_⟩
      rw [hsame, hvalue, ← hfold, ← fold_numbers ρ, ← Operation.fold_append,
        ← List.map_append]

/-! ## Powers -/

section Power

variable {b : Term} {n : Nat}

/-- A power with the constant exponent `n`. -/
theorem valueAt_power (ρ : String → Int) (b : Term) (n : Nat) :
    (power b (.number (.ratio n 1))).valueAt ρ = b.valueAt ρ ^ n := rfl

theorem isExponent_natCast (hn : isWord n = true) : IsExponent (.number (.ratio n 1)) :=
  ⟨n, rfl, hn⟩

/-- A constant that is raised to a power is raised exactly, or the power overflows. -/
theorem numberPower?_keeps {x : Number} (hx : x.IsWhole) (e : Term) (n : Nat) :
    Meets (numberPower? x e (some n))
      (fun out => ∃ y, out = some y ∧ y.IsWhole ∧ y.numerator = x.numerator ^ n)
      Fault.IsOverflow := by
  obtain ⟨m, rfl, _⟩ := hx
  have hpow := Number.powInt_ofRat (q := m) (n := n) (Or.inl (Int.natCast_nonneg n))
  rw [zpow_natCast, ← Int.cast_pow] at hpow
  refine Meets.map (hpow.imp fun y hy => ?_)
  exact ⟨y, rfl, ⟨m ^ n, hy.1, hy.2.1⟩, by rw [hy.1]; rfl⟩

/-- Raising each factor raises the product. -/
theorem prod_of_powers (ρ : String → Int) (ts : List Term) (n : Nat) :
    ((ts.map (.power · (.number (.ratio n 1)))).map (valueAt ρ)).prod
      = (ts.map (valueAt ρ)).prod ^ n := by
  induction ts with
  | nil => simp
  | cons t ts ih =>
    rw [List.map_cons, List.map_cons, List.prod_cons, ih, List.map_cons, List.prod_cons,
      mul_pow, valueAt_power]

/-- The product of two constant exponents is one that is not to be split. -/
theorem reduce_exponents_keeps (hf : KeepsValue f) {e : Term} (he : IsExponent e)
    (hn : isWord n = true) :
    Meets (f (product [e, .number (.ratio n 1)]))
      (fun r => IsExponent r.term ∧ splitExponent? r.term = none ∧
        ∀ ρ, r.term.valueAt ρ = e.valueAt ρ * n) EndlessOrOverflow := by
  have hes : ∀ u ∈ [e, .number (.ratio n 1)], IsExponent u := by
    intro u hu
    rcases List.mem_cons.mp hu with rfl | hu
    · exact he
    · obtain rfl : u = .number (.ratio n 1) := by simpa using hu
      exact isExponent_natCast hn
  have hproduct : (product [e, .number (.ratio n 1)]).IsPolynomial :=
    (isPolynomial_apply .product).mpr fun u hu => (hes u hu).isPolynomial
  have hvalue : ∀ ρ, (product [e, .number (.ratio n 1)]).valueAt ρ = e.valueAt ρ * n := by
    intro ρ
    change e.valueAt ρ * (n * 1) = _
    rw [mul_one]
  refine (hf _ hproduct).imp fun x hx => ?_
  -- what it is reduced to has the product as its value, which is not negative
  have hexp : IsExponent x.term := by
    refine combined_isExponent .product hes hx.1 hx.2 fun ρ => ?_
    refine le_of_le_of_eq ?_ (hvalue ρ).symm
    exact mul_nonneg (he.nonneg ρ) (Int.natCast_nonneg n)
  refine ⟨hexp, ?_, fun ρ => by rw [hx.2.valueAt_eq, hvalue]⟩
  obtain ⟨k, hk, _⟩ := hexp
  rw [hk]
  simp [splitExponent?]

/-- A power of a power has the exponents multiplied. -/
theorem combinePower_power_keeps (hf : KeepsValue f) {e : Term} (hb : b.IsPolynomial)
    (he : IsExponent e) (hn : isWord n = true) (changed : Bool) :
    Meets (combinePower f (power b e) (.number (.ratio n 1)) (some n) changed)
      (fun r => SameValue (power (power b e) (.number (.ratio n 1))) r.term)
      EndlessOrOverflow := by
  have hnonneg : ∀ ρ, 0 ≤ e.valueAt ρ := he.nonneg
  rw [combinePower]
  refine (reduce_exponents_keeps hf he hn).bind fun x hx => ?_
  obtain ⟨hexp, hsplit, hvalue⟩ := hx
  rw [if_neg (by rw [hsplit]; exact Bool.false_ne_true)]
  refine (hf (power b x.term) ⟨hb, hexp⟩).bind fun r hr => ?_
  refine ⟨hr.2.isPolynomial, fun ρ => ?_⟩
  rw [hr.2.valueAt_eq, valueAt_power]
  change b.valueAt ρ ^ (x.term.valueAt ρ).toNat = (b.valueAt ρ ^ (e.valueAt ρ).toNat) ^ n
  rw [hvalue, ← pow_mul, Int.toNat_mul (hnonneg ρ) (Int.natCast_nonneg n)]
  rfl

/-- A power of a product is the product of the powers. -/
theorem combinePower_product_keeps (hf : KeepsValue f) {ts : List Term}
    (hts : ∀ t ∈ ts, t.IsPolynomial) (hn : isWord n = true) (changed : Bool) :
    Meets (combinePower f (product ts) (.number (.ratio n 1)) (some n) changed)
      (fun r => SameValue (power (product ts) (.number (.ratio n 1))) r.term)
      EndlessOrOverflow := by
  rw [combinePower]
  have hpowers : (product (ts.map (.power · (.number (.ratio n 1))))).IsPolynomial := by
    refine (isPolynomial_apply .product).mpr fun u hu => ?_
    obtain ⟨v, hv, rfl⟩ := List.mem_map.mp hu
    exact ⟨hts v hv, isExponent_natCast hn⟩
  refine (hf _ hpowers).bind fun r hr => ?_
  refine ⟨hr.2.isPolynomial, fun ρ => ?_⟩
  rw [hr.2.valueAt_eq, valueAt_power]
  change (valuesAt ρ _).prod = (valuesAt ρ ts).prod ^ n
  rw [valuesAt_eq_map, valuesAt_eq_map, prod_of_powers]

/-- Combining the base of a polynomial with its exponent keeps the values. -/
theorem combinePower_keeps (hf : KeepsValue f) (hb : b.IsPolynomial) (hn : isWord n = true)
    (changed : Bool) :
    Meets (combinePower f b (.number (.ratio n 1)) (some n) changed)
      (fun r => SameValue (power b (.number (.ratio n 1))) r.term) EndlessOrOverflow := by
  have hsame : SameValue (power b (.number (.ratio n 1))) (power b (.number (.ratio n 1))) :=
    ⟨⟨hb, isExponent_natCast hn⟩, fun _ => rfl⟩
  cases b with
  | number x =>
    rw [combinePower]
    refine ((numberPower?_keeps hb _ n).mono (fun _ h => h)
      fun _ => endlessOrOverflow).bind fun out hout => ?_
    obtain ⟨y, rfl, hy, hvalue⟩ := hout
    exact ⟨hy, fun ρ => hvalue⟩
  | power b e => exact combinePower_power_keeps hf hb.1 hb.2 hn changed
  | product ts => exact combinePower_product_keeps hf (arePolynomials_iff.mp hb) hn changed
  | var name => exact hsame
  | sum ts => exact hsame
  | call c ts => exact absurd hb (by simp [IsPolynomial])

/-- One step of reducing a power keeps the values. -/
theorem reducePower_keeps (hf : KeepsValue f) (hb : b.IsPolynomial) (hn : isWord n = true)
    (changed : Bool) :
    Meets (reducePower f b (.number (.ratio n 1)) changed)
      (fun r => SameValue (power b (.number (.ratio n 1))) r.term) EndlessOrOverflow := by
  have hsplit : splitExponent? (.number (.ratio n 1)) = none := by simp [splitExponent?]
  have hwhole : wholeExponent? (.number (.ratio n 1)) = .ok (some (n : Int)) :=
    Number.whole?_ofRat n
  refine reducePower_meets (fun m d hparts => ?_) fun _ => ?_
  · rw [hsplit] at hparts
    cases hparts
  rw [hwhole, meets_ok]
  refine ⟨fun hone => ?_, fun hzero => ?_, fun _ _ => ?_⟩
  · have hn1 : n = 1 := by exact_mod_cast Option.some.inj hone
    refine ⟨hb, fun ρ => ?_⟩
    rw [valueAt_power, hn1, pow_one]
  · have hn0 : n = 0 := by exact_mod_cast Option.some.inj hzero
    refine ⟨⟨1, rfl, rfl⟩, fun ρ => ?_⟩
    rw [valueAt_power, hn0, pow_zero]
    rfl
  · exact combinePower_keeps hf hb hn changed

end Power

/-! ## All polynomials -/

/-- One step of reduction keeps the values of a polynomial, if the reductions that it asks for do.
-/
theorem reduceStep_keeps (hf : KeepsValue f) {t : Term} (ht : t.IsPolynomial) :
    Meets (reduceStep f t) (fun r => SameValue t r.term) EndlessOrOverflow := by
  cases t with
  | number x => exact ⟨ht, fun _ => rfl⟩
  | var name => exact ⟨trivial, fun _ => rfl⟩
  | product ts => exact reduceOperation_keeps hf .product (arePolynomials_iff.mp ht)
  | sum ts => exact reduceOperation_keeps hf .sum (arePolynomials_iff.mp ht)
  | power b e =>
    obtain ⟨hb, n, rfl, hn⟩ := ht
    rw [reduceStep]
    refine (hf b hb).bind fun rb hrb => ?_
    refine (hf _ (isExponent_natCast hn).isPolynomial).bind fun re hre => ?_
    -- a number is its own reduced form
    have hsame := ((reduce_shrinks _).of_ok hre.1).number rfl
    rw [hsame]
    refine (reducePower_keeps hf hrb.2.isPolynomial hn _).imp fun r hr => ?_
    refine ⟨hr.isPolynomial, fun ρ => ?_⟩
    rw [hr.valueAt_eq, valueAt_power, valueAt_power, hrb.2.valueAt_eq]
  | call c ts => exact absurd ht (by simp [IsPolynomial])

/-- Reducing a polynomial gives a polynomial of the same value, or overflows. -/
theorem reduce_keeps {t : Term} (ht : t.IsPolynomial) :
    Meets t.reduce (fun r => SameValue t r.term) Fault.IsOverflow :=
  reduce_induction (D := IsPolynomial) (E := fun _ => Fault.IsOverflow)
    (fun _ hf _ ht => reduceStep_keeps hf ht) t ht

/-! ## Flattening and sorting -/

/-- Splicing the members of an operation into it keeps the values, if that holds of the members. -/
theorem flatten_apply_sameValue (op : Operation) {ts : List Term}
    (h : ∀ t ∈ ts, SameValue t t.flatten) : SameValue (op.apply ts) (op.apply ts).flatten := by
  rw [flatten_apply]
  refine ⟨(isPolynomial_apply op).mpr fun u hu => ?_, fun ρ => ?_⟩
  · obtain ⟨v, hv, hu⟩ := List.mem_flatMap.mp hu
    obtain ⟨t, ht, rfl⟩ := List.mem_map.mp hv
    exact isPolynomial_lift (h t ht).isPolynomial hu
  · rw [valueAt_apply, valueAt_apply]
    induction ts with
    | nil => rfl
    | cons t ts ih =>
      rw [List.map_cons, List.flatMap_cons, List.map_append, Operation.fold_append, fold_lift,
        ih fun t ht => h t (by simp [ht]), (h t (by simp)).valueAt_eq, List.map_cons,
        Operation.fold_cons]

/-- Flattening a polynomial keeps its values. -/
theorem flatten_sameValue {t : Term} (ht : t.IsPolynomial) : SameValue t t.flatten := by
  induction t using operation_induction with
  | number x => exact ⟨ht, fun _ => rfl⟩
  | var name => exact ⟨trivial, fun _ => rfl⟩
  | operation op ts ih =>
    exact flatten_apply_sameValue op fun t htm => ih t htm ((isPolynomial_apply op).mp ht t htm)
  | power b e ihb _ =>
    obtain ⟨hb, n, rfl, hn⟩ := ht
    have hsame := ihb hb
    refine ⟨⟨hsame.isPolynomial, n, rfl, hn⟩, fun ρ => ?_⟩
    rw [valueAt_power, ← hsame.valueAt_eq]
    rfl
  | call f ts _ => exact absurd ht (by simp [IsPolynomial])

/-- Sorting the members of an operation keeps the values, if that holds of the members. -/
theorem sort_apply_sameValue (op : Operation) {ts : List Term}
    (h : ∀ t ∈ ts, Meets t.sort (SameValue t) Fault.IsOverflow) :
    Meets (op.apply ts).sort (SameValue (op.apply ts)) Fault.IsOverflow := by
  rw [sort_apply]
  refine (Meets.mapM h).bind fun us hus => ?_
  have hpoly : ∀ u ∈ us, u.IsPolynomial := fun u hu => by
    obtain ⟨t, _, hsame⟩ := exists_of_forall₂_right hus hu
    exact hsame.isPolynomial
  refine (sortBy_meets fun t ht u hu => order_polynomials (hpoly t ht) (hpoly u hu)).bind
    fun sorted hperm => ?_
  refine ⟨(isPolynomial_apply op).mpr fun u hu => hpoly u (hperm.subset hu), fun ρ => ?_⟩
  rw [valueAt_apply, valueAt_apply, op.fold_perm (hperm.map (valueAt ρ))]
  clear hperm hpoly h
  induction hus with
  | nil => rfl
  | cons hhead _ ih =>
    rw [List.map_cons, Operation.fold_cons, ih, hhead.valueAt_eq, List.map_cons,
      Operation.fold_cons]

/-- Sorting a polynomial keeps its values. -/
theorem sort_sameValue {t : Term} (ht : t.IsPolynomial) :
    Meets t.sort (SameValue t) Fault.IsOverflow := by
  induction t using operation_induction with
  | number x => exact ⟨ht, fun _ => rfl⟩
  | var name => exact ⟨trivial, fun _ => rfl⟩
  | operation op ts ih =>
    exact sort_apply_sameValue op fun t htm => ih t htm ((isPolynomial_apply op).mp ht t htm)
  | power b e ihb _ =>
    obtain ⟨hb, n, rfl, hn⟩ := ht
    rw [sort]
    refine (ihb hb).bind fun b' hb' => ?_
    refine ⟨⟨hb'.isPolynomial, n, rfl, hn⟩, fun ρ => ?_⟩
    rw [valueAt_power, valueAt_power, hb'.valueAt_eq]
  | call f ts _ => exact absurd ht (by simp [IsPolynomial])

end Term

/-! ## The whole pipeline -/

namespace Expr

open Term

/-- Simplifying a polynomial with integer constants gives a polynomial that has the same
value wherever its variables are given integers, or else overflows. -/
theorem simplify_polynomial (e : Expr) (he : e.IsPolynomial) :
    (∃ r, e.toTerm.simplify = .ok r ∧ r.term.IsPolynomial ∧
      ∀ ρ : String → Int, r.term.valueAt ρ = e.valueAt ρ) ∨
    e.toTerm.simplify = .error (.maths .overflow) := by
  obtain ⟨hpoly, hvalue⟩ := he.toTerm
  -- each stage keeps the value, and the stages follow each other
  have hflat := flatten_sameValue hpoly
  have hall : Meets e.toTerm.simplify (fun r => SameValue e.toTerm r.term) Fault.IsOverflow := by
    refine (sort_sameValue hflat.isPolynomial).bind fun sorted hsorted => ?_
    refine (reduce_keeps hsorted.isPolynomial).imp fun r hr => ?_
    exact (hflat.trans hsorted).trans hr
  cases h : e.toTerm.simplify with
  | ok r =>
    have hsame := hall.of_ok h
    exact Or.inl ⟨r, rfl, hsame.isPolynomial, fun ρ => (hsame.valueAt_eq ρ).trans (hvalue ρ)⟩
  | error f =>
    have hfault := hall.of_error h
    exact Or.inr (by rw [hfault])

/-- `(x + 1)^2 - x * (x + 2)`, which has a node of every kind. -/
theorem simplify_polynomial_square :
    let e := binary .subtract
      (power (parentheses (binary .add (var "x") (number (.ratio 1 1)))) (number (.ratio 2 1)))
      (binary .multiply (var "x") (parentheses (binary .add (var "x") (number (.ratio 2 1)))))
    e.IsPolynomial ∧
      ((∃ r, e.toTerm.simplify = .ok r ∧ r.term.IsPolynomial ∧
        ∀ ρ : String → Int, r.term.valueAt ρ = e.valueAt ρ) ∨
      e.toTerm.simplify = .error (.maths .overflow)) := by
  intro e
  have he : e.IsPolynomial :=
    ⟨⟨⟨trivial, 1, rfl, rfl⟩, rfl⟩, trivial, trivial, 2, rfl, rfl⟩
  exact ⟨he, simplify_polynomial e he⟩

end Expr
end Mathpad
