import Mathpad.Proofs.ExactRoots
import Mathpad.Proofs.MonomialReduction
import Mathpad.Proofs.NodeValues
import Mathpad.Proofs.Termination

/-!
# Simplifying a monomial

Where a monomial and what it is simplified to are both worked out to fractions, these are the
same apart from their signs. They have the same sign, too, if no even root is taken of anything
with a negative constant or variable in it: a root of a square loses the sign of what was squared,
and reduction does not look for signs. Constants matter only under roots, where different ones must
not compare equal.
-/
set_option autoImplicit false

namespace Mathpad.Term

open Number

variable {v : Interpretation}

/-! ## Flattening and sorting -/

/-- Flattening a monomial keeps it. -/
theorem flatten_monomial {t : Term} (ht : t.HasValue v) : Kept v t t.flatten := by
  induction ht with
  | number h => exact .refl (.number h)
  | var h => exact .refl (.var h)
  | @product ts hts ih =>
    have hflat : (product ts).flatten
        = product (ts.map fun t => Operation.product.lift t.flatten).flatten := by
      have happly := flatten_apply .product ts
      rwa [List.flatMap_map, List.flatMap_def] at happly
    rw [hflat]
    refine Kept.join ?_
    rw [List.forall₂_map_right_iff, List.forall₂_same]
    exact fun t ht => (ih t ht).trans (.lift (ih t ht).hasValue)
  | power _ hq ih => exact ih.raise hq

/-- Sorting a monomial keeps it. -/
theorem sort_monomial {t : Term} (ht : t.HasValue v) :
    Meets t.sort (Kept v t) fun _ => True := by
  induction ht with
  | number h => exact Kept.refl (.number h)
  | var h => exact Kept.refl (.var h)
  | @product ts hts ih =>
    rw [show (product ts).sort = _ from sort_apply .product ts]
    refine (Meets.mapM ih).bind fun us hus => ?_
    have hkept : Kept v (product ts) (product us) := .product hus
    refine (sortBy_meets fun t _ u _ => meets_true _).bind fun sorted hperm => ?_
    exact hkept.trans (.of_perm hkept.hasValue hperm.symm)
  | power _ hq ih =>
    rw [sort]
    exact ih.bind fun b' hb' => hb'.raise hq

/-- What a monomial is simplified to has its value. -/
theorem simplify_kept (hapart : ToldApart v.radicand) {t : Term}
    (hdegree : t.rootDegree ≤ maxDegree) (ht : t.HasValue v) :
    Meets t.simplify (fun r => Kept v t r.term) fun _ => True := by
  have hflat := flatten_monomial ht
  refine (sort_monomial hflat.hasValue).bind fun s hs => ?_
  have hsorted := hflat.trans hs
  exact (reduce_monomial hapart ⟨t.rootDegree_pos, hdegree⟩ hsorted.hasValue hsorted.degree).imp fun r hr =>
    hsorted.trans hr.kept

/-! ## Working out -/

section Eval

variable {c : ℚ →*₀ ℝ} {ρ : String → ℚ} {C : ℚ → Prop} {settings : EvalSettings}

/-- The power of a fraction that is worked out is the real power. -/
theorem realPower_of_pow (hc : ∀ q, 0 ≤ q → 0 ≤ c q) {p q r : ℚ} (hdefined : 0 ≤ q ∨ p ≠ 0)
    (hpow : r ^ q.den = p ^ q.num) (heven : Even q.den → 0 ≤ r ∧ 0 ≤ c p) :
    NotInverted (c p) q ∧ realPower (c p) q = c r := by
  have hdegree : (q.den : ℚ) ≠ 0 := by exact_mod_cast q.den_nz
  have hroot : (0 : ℚ) ≤ 1 / (q.den : ℚ) := by positivity
  have hden : (1 / (q.den : ℚ)).den = q.den := by
    rw [one_div, Rat.inv_natCast_den_of_pos q.den_pos]
  have hodd : ∀ n : ℤ, ¬Even ((n : ℚ)).den := fun n => by
    rw [Rat.den_intCast]
    decide
  have hinverted : NotInverted (c p) q := hdefined.imp_right (map_ne_zero c).mpr
  have hwhole : NotInverted (c p) (q.num : ℚ) :=
    hinverted.imp_left fun h => by exact_mod_cast Rat.num_nonneg.mpr h
  refine ⟨hinverted, ?_⟩
  -- the power of the numerator is taken first, and it is a power of the root
  have hbase : realPower (c p) (q.num : ℚ) = realPower (c r) ((q.den : ℤ) : ℚ) := by
    rw [realPower_intCast, realPower_intCast, ← map_zpow₀, ← hpow, zpow_natCast, map_pow]
  calc realPower (c p) q = realPower (c p) (q.num * (1 / (q.den : ℚ))) := by
        rw [mul_one_div, Rat.num_div_den]
    _ = realPower (realPower (c p) (q.num : ℚ)) (1 / (q.den : ℚ)) :=
        (realPower_realPower hwhole (Or.inl hroot) fun h =>
          (heven (hden ▸ h.resolve_left (hodd _))).2).symm
    _ = realPower (realPower (c r) ((q.den : ℤ) : ℚ)) (1 / (q.den : ℚ)) := by rw [hbase]
    _ = realPower (c r) (((q.den : ℤ) : ℚ) * (1 / (q.den : ℚ))) :=
        realPower_realPower (Or.inl (by exact_mod_cast Int.natCast_nonneg q.den)) (Or.inl hroot)
          fun h => hc r (heven (hden ▸ h.resolve_left (hodd _))).1
    _ = c r := by rw [Int.cast_natCast, mul_one_div_cancel hdegree, realPower_one]

/-- Operands whose result is a fraction are fractions. -/
theorem ratio_of_combine (op : Operation) {x y : Number} {n d : Int}
    (h : op.combine x y = .ok (.ratio n d)) :
    (∃ a b, x = .ratio a b) ∧ ∃ a b, y = .ratio a b := by
  have hdecimal : ∀ {o : Outcome Number}, Meets o IsDecimal (fun _ => True) →
      o ≠ .ok (.ratio n d) := by
    intro o ho hratio
    obtain ⟨w, k, hw⟩ := ho.of_ok hratio
    cases hw
  cases op <;> cases x <;> cases y <;>
    first
    | exact ⟨⟨_, _, rfl⟩, _, _, rfl⟩
    | exact absurd h (hdecimal ((meets_true _).bind fun _ _ => (meets_true _).bind fun _ _ =>
        (meets_true _).bind fun w _ => ⟨w, _, rfl⟩))

/-- An operation gives a fraction only of fractions, as a decimal makes everything decimal. -/
theorem ratio_of_total (op : Operation) {xs : List Number} {n d : Int}
    (h : op.total xs = .ok (.ratio n d)) : ∀ x ∈ xs, ∃ a b, x = .ratio a b := by
  have hfold : ∀ (xs : List Number) (x : Number), xs.foldlM op.combine x = .ok (.ratio n d) →
      ∀ y ∈ x :: xs, ∃ a b, y = .ratio a b := by
    intro xs
    induction xs with
    | nil =>
      intro x hx y hy
      rw [List.mem_singleton.mp hy]
      exact ⟨n, d, Except.ok.inj hx⟩
    | cons z zs ih =>
      intro x hx
      rw [List.foldlM_cons] at hx
      -- an intermediate total that is no fraction would stay one to the end
      obtain ⟨w, hw, hx⟩ := Outcome.bind_eq_ok.mp hx
      have hall := ih w hx
      obtain ⟨a, b, rfl⟩ := hall w (by simp)
      obtain ⟨hratio, hratio'⟩ := ratio_of_combine op hw
      intro y hy
      simp only [List.mem_cons] at hy
      rcases hy with rfl | rfl | hy
      · exact hratio
      · exact hratio'
      · exact hall y (by simp [hy])
  cases xs with
  | nil => simp
  | cons x xs => exact hfold xs x h

/-- Where fractions give a fraction, they give their product. -/
theorem total_fractions {qs : List ℚ} {n d : Int}
    (h : Operation.product.total (qs.map ofRat) = .ok (.ratio n d)) :
    .ratio n d = ofRat qs.prod := by
  cases qs with
  | nil => exact (Except.ok.inj h).symm
  | cons q qs =>
    rw [List.prod_cons]
    exact (total_closed .product q qs).of_ok h

/-- A monomial that is worked out to a fraction has that value, if its even roots are taken of
monomials without negative parts. -/
theorem eval_monomial (hC : ClosedUnderPowers C) (hc : ∀ q, 0 ≤ q → 0 ≤ c q) {t : Term}
    (ht : Monomial (fun _ => True) (fun _ => True) (Rooted (.of c ρ hC)) t) {n d : Int}
    (h : t.eval settings .ok (fun name => ofRat (ρ name)) = .ok (.ratio n d)) :
    ∃ q, .ratio n d = ofRat q ∧ t.HasValue (.of c ρ hC) ∧ t.realAt (.of c ρ hC) = c q := by
  induction ht generalizing n d with
  | @number q hq => exact ⟨q, (Except.ok.inj h).symm, .number hq, realAt_number q⟩
  | @var name _ => exact ⟨ρ name, (Except.ok.inj h).symm, .var trivial, rfl⟩
  | @product ts hts ih =>
    rw [show (product ts).eval _ _ _ = _ from eval_apply settings .ok _ .product ts] at h
    obtain ⟨xs, hxs, htotal⟩ := Outcome.bind_eq_ok.mp h
    clear h
    -- one decimal would make the total a decimal, so every member is a fraction
    have hratios := ratio_of_total .product htotal
    obtain ⟨qs, rfl, hvalue, hreal⟩ : ∃ qs : List ℚ, xs = qs.map ofRat ∧
        (product ts).HasValue (.of c ρ hC) ∧ (product ts).realAt (.of c ρ hC) = c qs.prod := by
      have hall := forall₂_of_mapM hxs
      -- cleared, or the induction over the members would carry them along
      clear hxs htotal hts
      induction hall with
      | nil => exact ⟨[], rfl, hasValue_product.mpr (by simp), by simp [realAt_product]⟩
      | @cons t x ts xs hhead _ ihtail =>
        obtain ⟨a, b, rfl⟩ := hratios x (by simp)
        obtain ⟨q, hq, hvalue, hreal⟩ := ih t (by simp) hhead
        obtain ⟨qs, rfl, hvalues, hreals⟩ :=
          ihtail (fun t ht => ih t (by simp [ht])) fun y hy => hratios y (by simp [hy])
        refine ⟨q :: qs, by rw [List.map_cons, hq], hasValue_product.mpr ?_, ?_⟩
        · rw [List.forall_mem_cons]
          exact ⟨hvalue, hasValue_product.mp hvalues⟩
        · rw [realAt_product] at hreals ⊢
          rw [List.map_cons, List.prod_cons, hreal, hreals, List.prod_cons, map_mul]
    exact ⟨qs.prod, total_fractions htotal, hvalue, hreal⟩
  | @power b q hb hq ih =>
    rw [eval] at h
    obtain ⟨x, hx, h⟩ := Outcome.bind_eq_ok.mp h
    cases x with
    | decimal w a =>
      obtain ⟨w', a', hdecimal⟩ := (pow_decimal w a q).of_ok h
      cases hdecimal
    | ratio a k =>
      obtain ⟨p, hp, hvalue, hreal⟩ := ih hx
      rw [hp] at h
      obtain ⟨r, hr, hdefined, hpow, heven⟩ := pow_fraction h
      -- an even root is taken of a base without negative parts only
      have hbase : Even q.den → 0 ≤ c p := fun hden => by
        rw [← hreal]
        exact (hq.even hden).realAt
      obtain ⟨hinverted, hpower⟩ := realPower_of_pow hc hdefined hpow fun hden =>
        ⟨heven hden, hbase hden⟩
      rw [← hreal] at hinverted
      refine ⟨r, hr, hvalue.raise ⟨hq, hinverted⟩, ?_⟩
      rw [realAt_raise, hreal, hpower]

end Eval

/-! ## The whole pipeline -/

/-- Roots are taken only of what is made of constants in `C`. -/
def RootsOf (C : ℚ → Prop) (t : Term) : Prop :=
  Monomial (fun _ => True) (fun _ => True) (fun b q => q.den ≠ 1 → b.MadeOf C fun _ => True) t

/-- No even root is taken of anything with a negative constant or variable in it. -/
def EvenRootsNonneg (ρ : String → ℚ) (t : Term) : Prop :=
  Monomial (fun _ => True) (fun _ => True)
    (fun b q => Even q.den → b.MadeOf (0 ≤ ·) fun name => 0 ≤ ρ name) t

/-- **A monomial keeps its value when it is simplified, apart from the sign.** Where it and the
simplified term are both worked out to fractions, these have the same magnitude. If no even root is
taken of anything with a negative part in it, they have the same sign as well. The constants that
roots are taken of are from a set that products and powers do not lead out of, such as the powers of
one number, and no two different ones compare equal. Where all exponents are whole there is no root,
and nothing is asked of the constants. -/
theorem eval_simplify_monomial {C : ℚ → Prop} (hC : ClosedUnderPowers C) (hapart : ToldApart C)
    {t : Term} (ht : Monomial (fun _ => True) (fun _ => True) (fun _ q => Fits q) t)
    (hroots : RootsOf C t) (hdegree : t.rootDegree ≤ maxDegree) {r : Reduced}
    (hr : t.simplify = .ok r) {settings : EvalSettings} {ρ : String → ℚ} {n d n' d' : Int}
    (hv : t.eval settings .ok (fun name => ofRat (ρ name)) = .ok (.ratio n d))
    (hv' : r.term.eval settings .ok (fun name => ofRat (ρ name)) = .ok (.ratio n' d')) :
    (n'.natAbs = n.natAbs ∧ d' = d) ∧ (EvenRootsNonneg ρ t → n' = n) := by
  -- what is simplified has the real value of the original, whatever fractions count as
  have hsame : ∀ c : ℚ →*₀ ℝ, (∀ q, 0 ≤ q → 0 ≤ c q) →
      Monomial (fun _ => True) (fun _ => True)
        (fun b q => Even q.den → b.Nonneg (.of c ρ hC)) t →
      ∃ p q : ℚ, .ratio n d = ofRat p ∧ .ratio n' d' = ofRat q ∧ c q = c p := by
    intro c hc heven
    have hrooted : Monomial (fun _ => True) (fun _ => True) (Rooted (.of c ρ hC)) t :=
      ((ht.and hroots).and heven).imp (fun _ _ => trivial) (fun _ _ => trivial)
        fun b q _ h => ⟨h.1.1, h.2, h.1.2⟩
    obtain ⟨p, hp, hvalue, hreal⟩ := eval_monomial hC hc hrooted hv
    have hkept := (simplify_kept hapart hdegree hvalue).of_ok hr
    have hterm : Monomial (fun _ => True) (fun _ => True) (Rooted (.of c ρ hC)) r.term :=
      Monomial.imp hkept.hasValue (fun _ h => h) (fun _ h => h) fun _ _ _ h => h.toRooted
    obtain ⟨q, hq, -, hreal'⟩ := eval_monomial hC hc hterm hv'
    exact ⟨p, q, hp, hq, by rw [← hreal', hkept.realAt_eq, hreal]⟩
  refine ⟨?_, fun heven => ?_⟩
  · let magnitude : ℚ →*₀ ℝ := absHom.comp (Rat.castHom ℝ).toMonoidWithZeroHom
    have hnonneg : ∀ q, 0 ≤ magnitude q := fun q => abs_nonneg (q : ℝ)
    obtain ⟨p, q, hp, hq, hpq⟩ := hsame magnitude (fun q _ => hnonneg q) <|
      ht.imp (fun _ h => h) (fun _ h => h) fun b q hb _ _ =>
        hb.imp (fun q _ => hnonneg q) (fun name _ => hnonneg (ρ name)) fun _ _ _ _ => trivial
    obtain ⟨rfl, rfl⟩ := Number.ratio.inj hp
    obtain ⟨rfl, rfl⟩ := Number.ratio.inj hq
    have habs : |q| = |p| := by
      have hreal : |(q : ℝ)| = |(p : ℝ)| := hpq
      exact_mod_cast hreal
    rcases abs_eq_abs.mp habs with rfl | rfl
    · exact ⟨rfl, rfl⟩
    · rw [Rat.num_neg_eq_neg_num, Rat.den_neg_eq_den, Int.natAbs_neg]
      exact ⟨rfl, rfl⟩
  · obtain ⟨p, q, hp, hq, hpq⟩ := hsame (Rat.castHom ℝ).toMonoidWithZeroHom
      (fun q hq => Rat.cast_nonneg.mpr hq) <|
      Monomial.imp heven (fun _ h => h) (fun _ h => h) fun b q _ hq hden =>
        Monomial.imp (hq hden) (fun q hq => Rat.cast_nonneg.mpr hq)
          (fun name h => Rat.cast_nonneg.mpr h) fun _ _ _ h => h
    have hreal : (q : ℝ) = (p : ℝ) := hpq
    obtain ⟨rfl, rfl⟩ := Number.ratio.inj hp
    obtain ⟨rfl, rfl⟩ := Number.ratio.inj hq
    rw [Rat.cast_injective hreal]

/-- A root is taken of a product whose variable is not negative. -/
theorem eval_simplify_monomial_product :
    let t := power (product [number (.ratio 4 1), power (var "x") (number (.ratio 2 1))])
      (number (.ratio 3 2))
    let u := product [power (number (.ratio 64 1)) (number (.ratio 1 2)),
      power (var "x") (number (.ratio 3 1))]
    ToldApart (SignedPower 2) ∧ RootsOf (SignedPower 2) t ∧ t.rootDegree ≤ maxDegree ∧
      t.simplify = .ok ⟨u, true⟩ ∧
      t.eval {} .ok (fun _ => ofRat 3) = .ok (.ratio 216 1) ∧
      u.eval {} .ok (fun _ => ofRat 3) = .ok (.ratio 216 1) ∧ EvenRootsNonneg (fun _ => 3) t ∧
      ((216 : Int).natAbs = (216 : Int).natAbs ∧ (1 : Int) = 1) ∧ (216 : Int) = 216 := by
  intro t u
  have hapart : ToldApart (SignedPower 2) := toldApart_signedPower (by decide)
  have hfour : SignedPower 2 4 := ⟨⟨rfl, rfl⟩, Or.inr ⟨2, by norm_num⟩⟩
  have hbase : ∀ {C : ℚ → Prop} {V : String → Prop} {W : Term → ℚ → Prop}, C 4 → V "x" →
      W (var "x") 2 →
      Monomial C V W (product [number (.ratio 4 1), power (var "x") (number (.ratio 2 1))]) := by
    intro C V W hC hV hW
    refine .product ?_
    simp only [List.forall_mem_cons, List.not_mem_nil, false_implies, implies_true, and_true]
    exact ⟨.number (q := 4) hC, .power (q := 2) (.var hV) hW⟩
  let q : ℚ := ⟨3, 2, by decide, by decide⟩
  have htwo : Fits 2 := ⟨rfl, rfl⟩
  have hexponent : Fits q := ⟨rfl, rfl⟩
  have ht : Monomial (fun _ => True) (fun _ => True) (fun _ q => Fits q) t :=
    .power (q := q) (hbase trivial trivial htwo) hexponent
  have hroots : RootsOf (SignedPower 2) t :=
    .power (q := q) (hbase trivial trivial fun h => absurd rfl h) fun _ =>
      hbase hfour trivial trivial
  have heven : EvenRootsNonneg (fun _ => 3) t :=
    .power (q := q) (hbase trivial trivial fun h => absurd h (by decide)) fun _ =>
      hbase (by norm_num) (by norm_num) trivial
  have hdegree : t.rootDegree ≤ maxDegree := by
    have hroot : t.rootDegree = 2 := by with_unfolding_all rfl
    rw [hroot]
    decide
  have hr : t.simplify = .ok ⟨u, true⟩ := by
    have hs : t.flatten.sort = .ok t := by with_unfolding_all rfl
    rw [simplify, hs, ok_bind]
    exact reduce_of_reduceWithin (n := 7) (by with_unfolding_all rfl)
  have hv : t.eval {} .ok (fun _ => ofRat 3) = .ok (.ratio 216 1) := by with_unfolding_all rfl
  have hv' : u.eval {} .ok (fun _ => ofRat 3) = .ok (.ratio 216 1) := by with_unfolding_all rfl
  have hsame := eval_simplify_monomial (signedPower_closed (by decide)) hapart ht hroots hdegree hr
    hv hv'
  exact ⟨hapart, hroots, hdegree, hr, hv, hv', heven, hsame.1, hsame.2 heven⟩

/-- The root of a square loses the sign of what was squared. The roots of two constants that compare
equal are multiplied as if both were roots of the first one. -/
theorem simplify_square_root :
    (let t := power (power (var "x") (number (.ratio 2 1))) (number (.ratio 1 2));
      t.simplify = .ok ⟨var "x", true⟩ ∧
        t.eval {} .ok (fun _ => ofRat (-1)) = .ok (.ratio 1 1) ∧
        (var "x").eval {} .ok (fun _ => ofRat (-1)) = .ok (.ratio (-1) 1)) ∧
    (let t := product [power (number (.ratio 1 9000000006000000001)) (number (.ratio 1 2)),
        power (number (.ratio 1 9000000012000000004)) (number (.ratio 1 2))];
      t.simplify = .ok ⟨number (.ratio 1 9000000006000000001), true⟩ ∧
        t.eval {} .ok (fun _ => ofRat 0) = .ok (.ratio 1 9000000009000000002)) := by
  refine ⟨⟨?_, by with_unfolding_all rfl, rfl⟩, ?_, by with_unfolding_all rfl⟩
  · have hs : (power (power (var "x") (number (.ratio 2 1))) (number (.ratio 1 2))).flatten.sort
        = .ok (power (power (var "x") (number (.ratio 2 1))) (number (.ratio 1 2))) := by
      with_unfolding_all rfl
    rw [simplify, hs, ok_bind]
    exact reduce_of_reduceWithin (n := 4) (by with_unfolding_all rfl)
  · refine Outcome.bind_eq_ok.mpr ⟨_, by with_unfolding_all rfl, ?_⟩
    exact reduce_of_reduceWithin (n := 4) (by with_unfolding_all rfl)

end Mathpad.Term
