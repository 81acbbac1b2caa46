import Mathlib.Data.Set.List
import Mathpad.Proofs.ClosedReduction
import Mathpad.Proofs.Monomials
import Mathpad.Proofs.StoredNumbers

/-!
# Reduction keeps the value of a monomial

Each rule of reduction applies laws of exponents, so the reduced monomial has the value of the
original. Factors are grouped by comparing their bases, and that is where the numbers come in:
comparison has to tell the constants apart, and the exponents that roots of roots can have.
-/
set_option autoImplicit false

namespace Mathpad.Term

open Number

/-- No exponent in the monomial is split any further. -/
def Unsplit (t : Term) : Prop :=
  Monomial (fun _ => True) (fun _ => True) (fun _ q => IsUnsplit q) t

theorem unsplit_number (q : ℚ) : (number (.ofRat q)).Unsplit := .number trivial

theorem eq_of_whole {q : ℚ} {n : ℤ} (h : (if q.den = 1 then some q.num else none) = some n) :
    q = n := by
  by_cases hden : q.den = 1
  · rw [if_pos hden] at h
    rw [← Option.some.inj h, Rat.coe_int_num_of_den_eq_one hden]
  · rw [if_neg hden] at h
    cases h

/-- A constant, or a factor whose base roots may be taken of. -/
def Joinable (v : Interpretation) (t : Term) : Prop :=
  (∃ x, t = number x) ∨ (Factor.ofTerm t).base.Radicand v

/-- Any monomial that roots may be taken of can be merged with others. -/
theorem Joinable.of_radicand {v : Interpretation} {t : Term} (h : t.Radicand v) :
    t.Joinable v := by
  refine Or.inr ?_
  cases t with
  | power b e => exact Monomial.base h
  | _ => exact h

/-- The members of a factor that is a product can be merged as well. -/
theorem Joinable.lift {v : Interpretation} {t u : Term} (h : t.Joinable v)
    (hu : u ∈ Operation.product.lift t) : u.Joinable v := by
  rcases Operation.mem_lift hu with rfl | ⟨ts, rfl, hmem⟩
  · exact h
  · rcases h with ⟨x, hx⟩ | hbase
    · cases hx
    · exact .of_radicand (madeOf_product.mp hbase u hmem)

/-- A monomial is rewritten as one of the same value without an exponent to split. Each factor of
what it is rewritten as is a constant or can be merged with others. -/
structure ReducesTo (v : Interpretation) (t u : Term) : Prop where
  kept : Kept v t u
  unsplit : Unsplit u
  joinable : ∀ m ∈ Operation.product.lift u, m.Joinable v

theorem reducesTo_number {v : Interpretation} {t : Term} {q : ℚ}
    (h : Kept v t (number (.ofRat q))) : ReducesTo v t (number (.ofRat q)) :=
  ⟨h, unsplit_number q, fun _ hm => Joinable.lift (Or.inl ⟨_, rfl⟩) hm⟩

/-- A power is as reduced as it can be if its exponent is not split and roots may be taken of its
base. -/
theorem reducesTo_power {v : Interpretation} {t b : Term} {q : ℚ} (h : Kept v t (b.raise q))
    (hb : b.Unsplit) (hq : IsUnsplit q) (hradicand : b.Radicand v) :
    ReducesTo v t (b.raise q) :=
  ⟨h, .power hb hq, fun _ hm => Joinable.lift (t := b.raise q) (Or.inr hradicand) hm⟩

/-- The reductions that are asked for keep the values of monomials with roots of the degree `D`. -/
def KeepsMonomials (v : Interpretation) (D : Nat) (f : Term → Outcome Reduced) :
    Prop :=
  ∀ u, Meets (f u)
    (fun r => u.reduce = .ok r ∧
      (u.HasValue v → u.rootDegree ∣ D → ReducesTo v u r.term)) fun _ => True

variable {v : Interpretation} {D : Nat} {f : Term → Outcome Reduced}

/-- A monomial that another one was rewritten as is reduced. -/
theorem KeepsMonomials.after (hf : KeepsMonomials v D f) {t u : Term} (hk : Kept v t u)
    (hD : t.rootDegree ∣ D) : Meets (f u) (fun r => ReducesTo v t r.term) fun _ => True := by
  refine (hf u).imp fun r hr => ?_
  obtain ⟨hkept, hunsplit, hjoinable⟩ := hr.2 hk.hasValue (hk.degree.trans hD)
  exact ⟨hk.trans hkept, hunsplit, hjoinable⟩

/-! ## Exponents -/

/-- Exponents that are added or multiplied make an exponent. -/
theorem eq_of_reduce_exponents (op : Operation) {qs : List ℚ} (hqs : ∀ q ∈ qs, Fits q)
    {r : Reduced} (hr : (op.apply (qs.map fun q => number (.ofRat q))).reduce = .ok r) :
    r.term = number (.ofRat (op.fold qs)) ∧ Fits (op.fold qs) := by
  have hclosed : (op.apply (qs.map fun q => number (.ofRat q))).IsClosed := by
    refine (isClosed_apply op).mpr fun t ht => ?_
    obtain ⟨q, -, rfl⟩ := List.mem_map.mp ht
    exact ⟨q, rfl⟩
  obtain ⟨q, hq, hterm⟩ := (reduce_closed hclosed).of_ok hr
  have hvalue : (qs.map fun q => number (.ofRat q)).map value? = qs.map some := by
    rw [List.map_map]
    exact List.map_congr_left fun q _ => value?_ofRat q
  rw [value?_apply, hvalue, op.total?_some] at hq
  obtain rfl := Option.some.inj hq
  refine ⟨hterm, ?_⟩
  -- what can be stored stays so
  have hstored : (Leaves.mk Number.Stored (fun _ => True) fun _ _ => True).In
      (op.apply (qs.map fun q => number (.ofRat q))) := by
    refine Leaves.in_apply op fun t ht => ?_
    obtain ⟨q, hq, rfl⟩ := List.mem_map.mp ht
    exact Leaves.in_number (.ratio (hqs q hq))
  have hleaf := ((stored_closed (fun _ => True) fun _ _ => True).reduce trivial _ hstored).of_ok hr
  rw [hterm] at hleaf
  have hnumber : (ofRat (op.fold qs)).Stored := hleaf.number
  generalize hx : ofRat (op.fold qs) = x at hnumber
  cases hnumber with
  | ratio hfits => rwa [ofRat_injective hx]
  | decimal => cases hx

/-! ## Members -/

/-- The factors of a product without exponents to split have none either. -/
theorem Unsplit.lift {t u : Term} (h : t.Unsplit) (hu : u ∈ Operation.product.lift t) :
    u.Unsplit := by
  rcases Operation.mem_lift hu with rfl | ⟨ts, rfl, hmem⟩
  · exact h
  · exact Monomial.members h u hmem

/-- The members of a product are rewritten as factors that can be merged, with the constants at the
front. -/
structure MembersRewritten (v : Interpretation) (ts members : List Term) : Prop where
  kept : Kept v (product ts) (product members)
  unsplit : ∀ u ∈ members, u.Unsplit
  joinable : ∀ u ∈ members, u.Joinable v
  ranks : RanksAscend members

/-- Reducing the members of a product rewrites them as factors that can be merged, constants first.
-/
theorem reduceMembers_monomial (hf : KeepsMonomials v D f) {ts : List Term}
    (hts : (product ts).HasValue v) (hD : (product ts).rootDegree ∣ D) :
    Meets (reduceMembers f .product ts) (fun out => MembersRewritten v ts out.1)
      fun _ => True := by
  refine (reduceMembers_meets .product (P := fun _ => True)
    (Q := fun t r => ReducesTo v t r.term ∧ (r.performed = false → r.term.rank = t.rank))
    (fun t u _ _ => meets_true _) (fun _ _ => trivial) fun t ht => ?_).imp fun out hout => ?_
  · refine (hf t).imp fun r hr => ⟨⟨?_, ?_⟩, fun _ _ => trivial⟩
    · exact hr.2 (hasValue_product.mp hts t ht) (rootDegree_product_dvd.mp hD t ht)
    · exact ((reduce_shrinks t).of_ok hr.1).rank_eq
  · obtain ⟨sorted, rs, hred⟩ := hout
    -- the members are sorted, reduced, and their factors put among them
    have hsorted := Kept.of_perm hts hred.sorted_perm.symm
    have hlifted : Kept v (product sorted)
        (product (rs.flatMap fun r => Operation.product.lift r.term)) := by
      rw [List.flatMap_def]
      refine Kept.join ?_
      rw [List.forall₂_map_right_iff]
      exact hred.reduced.imp fun t r hr => hr.1.kept.trans (.lift hr.1.kept.hasValue)
    have hmember : ∀ u ∈ out.1, u.Unsplit ∧ u.Joinable v := by
      intro u hu
      obtain ⟨r, hr, hu⟩ := List.mem_flatMap.mp (hred.members_perm.subset hu)
      obtain ⟨t, -, hto⟩ := exists_of_forall₂_right hred.reduced hr
      exact ⟨hto.1.unsplit.lift hu, hto.1.joinable u hu⟩
    exact ⟨(hsorted.trans hlifted).trans (.of_perm hlifted.hasValue hred.members_perm.symm),
      fun u hu => (hmember u hu).1, fun u hu => (hmember u hu).2,
      hred.ranksAscend fun t r hr => hr.2⟩

/-! ## Constants -/

/-- Constants are multiplied. -/
theorem Kept.constants {qs : List ℚ}
    (hprod : ∀ {C : ℚ → Prop}, ClosedUnderPowers C → (∀ q ∈ qs, C q) → C qs.prod) :
    Kept v (.product (qs.map fun q => .number (.ofRat q))) (.number (.ofRat qs.prod)) where
  hasValue := .number trivial
  realAt_eq := by
    rw [realAt_number, realAt_product, List.map_map, map_list_prod]
    exact congrArg List.prod (List.map_congr_left fun q _ => (realAt_number q).symm)
  madeOf hC hm := by
    refine .number (hprod hC fun q hq => ?_)
    obtain ⟨p, hp, hCp⟩ := Monomial.of_number (madeOf_product.mp hm _ (List.mem_map_of_mem hq))
    rwa [ofRat_injective hp]
  degree := one_dvd _

/-- The product of some constants is computed exactly, and belongs to every set of constants that is
closed under powers. -/
theorem total_monomial (p : ℚ) (qs : List ℚ) :
    Meets ((qs.map ofRat).foldlM Operation.product.combine (ofRat p))
      (fun total => total = ofRat (p * qs.prod) ∧ ∀ {C : ℚ → Prop}, ClosedUnderPowers C →
        C p → (∀ q ∈ qs, C q) → C (p * qs.prod)) fun _ => True := by
  induction qs generalizing p with
  | nil =>
    rw [List.prod_nil, mul_one]
    exact ⟨rfl, fun _ hp _ => hp⟩
  | cons q qs ih =>
    rw [List.map_cons, List.foldlM_cons, List.prod_cons, ← mul_assoc]
    refine ((mul_ofRat p q).mono (fun _ h => h) fun _ _ => trivial).bind fun x hx => ?_
    rw [hx.1]
    refine (ih (p * q)).imp fun total htotal => ⟨htotal.1, fun hC hp hqs => ?_⟩
    exact htotal.2 hC (hC.mul hp (hqs q (by simp)) hx.2) fun q hq => hqs q (by simp [hq])

/-- Merging the constants of a product keeps it. -/
theorem mergeNumbers_monomial (qs : List ℚ) (alone : Bool) :
    Meets (mergeNumbers .product (qs.map ofRat) alone)
      (fun out => Kept v (product (qs.map fun q => number (.ofRat q)))
        (product (out.1.map number))) fun _ => True := by
  have hall : (product (qs.map fun q => number (.ofRat q))).HasValue v := by
    refine hasValue_product.mpr fun t ht => ?_
    obtain ⟨q, hq, rfl⟩ := List.mem_map.mp ht
    exact .number trivial
  have hsame : (qs.map ofRat).map number = qs.map fun q => number (.ofRat q) := by
    rw [List.map_map]
    rfl
  unfold mergeNumbers
  by_cases hempty : (qs.map ofRat).isEmpty = true
  · rw [if_pos hempty]
    obtain rfl := List.map_eq_nil_iff.mp (List.isEmpty_iff.mp hempty)
    exact Kept.refl hall
  · rw [if_neg hempty]
    refine (total_monomial 1 qs).bind fun total htotal => ?_
    rw [one_mul] at htotal
    obtain ⟨rfl, hprod⟩ := htotal
    have hmerged : Kept v (product (qs.map fun q => number (.ofRat q))) _ :=
      .constants fun hC => hprod hC hC.one
    -- a total of one is left out, unless there is nothing but constants
    by_cases hneutral :
        (Operation.product.isNeutral (ofRat qs.prod) && !alone) = true
    · rw [if_pos hneutral]
      have hone : qs.prod = 1 := by
        have hnum : (qs.prod.num == (qs.prod.den : ℤ)) = true := (Bool.and_eq_true _ _ ▸ hneutral).1
        rw [← Rat.num_div_den qs.prod, beq_iff_eq.mp hnum, Int.cast_natCast]
        exact div_self (by exact_mod_cast qs.prod.den_nz)
      refine ⟨hasValue_product.mpr (by simp), ?_, fun _ _ => madeOf_product.mpr (by simp),
        one_dvd _⟩
      rw [← hmerged.realAt_eq, realAt_number, hone, map_one, realAt_product]
      rfl
    · rw [if_neg hneutral]
      by_cases hlong : 1 < (qs.map ofRat).length
      · rw [if_pos hlong]
        exact hmerged.trans (.alone hmerged.hasValue)
      · rw [if_neg hlong]
        change Kept v _ (product ((qs.map ofRat).map number))
        rw [hsame]
        exact .refl hall

/-- A zero makes a product zero. -/
theorem Kept.absorbed {qs : List ℚ} {rest : List Term} (hzero : 0 ∈ qs) :
    Kept v (.product ((qs.map fun q => number (.ofRat q)) ++ rest)) (number (.ofRat 0)) := by
  have hmem : number (.ofRat 0) ∈ (qs.map fun q => number (.ofRat q)) ++ rest :=
    List.mem_append_left _ (List.mem_map_of_mem hzero)
  have hvalue : (number (.ofRat 0)).realAt v = 0 := by rw [realAt_number, map_zero]
  refine ⟨.number trivial, ?_, fun _ hm => madeOf_product.mp hm _ hmem, one_dvd _⟩
  rw [hvalue, realAt_product]
  exact (List.prod_eq_zero (List.mem_map.mpr ⟨_, hmem, hvalue⟩)).symm

/-! ## Like factors -/

/-- A factor of a monomial as base and exponent. -/
structure MonomialFactor (v : Interpretation) (D : Nat) (a : Factor) : Prop where
  exponent : a.exponent = number (.ofRat a.exponent.constantValue)
  kept : Kept v a.whole (a.base.raise a.exponent.constantValue)
  unsplit : a.base.Unsplit
  radicand : a.base.Radicand v
  degree : a.whole.rootDegree ∣ D

/-- A factor is taken for a power with a fraction as its exponent. -/
theorem HasValue.factor {t : Term} (h : t.HasValue v) (hu : t.Unsplit)
    (hradicand : (Factor.ofTerm t).base.Radicand v) (hD : t.rootDegree ∣ D) :
    MonomialFactor v D (Factor.ofTerm t) := by
  have hone : (number Number.one).constantValue = 1 := by norm_num [constantValue, one, value]
  cases t with
  | power b e =>
    obtain ⟨q, rfl, -⟩ := Monomial.exponent h
    have hq : (number (.ofRat q)).constantValue = q := value_ofRat q
    refine ⟨?_, ?_, Monomial.base hu, hradicand, hD⟩
    all_goals
      dsimp only [Factor.ofTerm]
      rw [hq]
    exact .refl h
  | _ =>
    refine ⟨?_, ?_, hu, hradicand, hD⟩
    all_goals
      dsimp only [Factor.ofTerm]
      rw [hone]
    · rfl
    · exact .to_raise_one h

/-- The bases of two factors that compare equal are equal. -/
theorem MonomialFactor.eq_of_tied (hC : ToldApart v.radicand) (hE : 0 < D ∧ D ≤ maxDegree)
    {a b : Factor} (ha : MonomialFactor v D a) (hb : MonomialFactor v D b)
    (h : Tied a.base b.base) : a.base = b.base := by
  have hbase : ∀ {a : Factor}, MonomialFactor v D a →
      Monomial (fun q => v.radicand q ∧ True ∧ True) (fun _ => True ∧ True ∧ True)
        (fun b q => (True ∧ Allowed v b q ∧ IsUnsplit q) ∧ q.den ∣ D) a.base := by
    intro a ha
    have hdegree := ha.kept.degree.trans ha.degree
    rw [rootDegree_raise] at hdegree
    exact (Monomial.and ha.radicand (Monomial.and ha.kept.hasValue.base ha.unsplit)).den_dvd
      (dvd_of_mul_left_dvd hdegree)
  refine (hbase ha).eq_of_tied (fun p q hp hq => hC p q hp.1 hq.1) (fun _ p q hp hq => ?_)
    (hbase hb) h
  obtain ⟨⟨-, hallowed, hunsplit⟩, hden⟩ := hp
  obtain ⟨⟨-, hallowed', hunsplit'⟩, hden'⟩ := hq
  have hmax : ∀ {k}, k ∣ D → k ≤ maxDegree := fun hk => (Nat.le_of_dvd hE.1 hk).trans hE.2
  exact toldApart_rootExponent p q ⟨hallowed.fits, hunsplit, hmax hden⟩
    ⟨hallowed'.fits, hunsplit', hmax hden'⟩

/-- What is put in the place of a group of factors has their value. -/
def RunRewritten (v : Interpretation) (run : List Factor) (out : Option Term) :
    Prop :=
  Kept v (product (run.map (·.whole))) (product out.toList)

/-- Merging factors of one base adds their exponents, which the value allows as roots are taken of
that base alone. -/
theorem mergeFactors_monomial (hf : KeepsMonomials v D f) {first : Factor} {more : List Factor}
    (hD : (product ((first :: more).map (·.whole))).rootDegree ∣ D)
    (hrun : ∀ a ∈ first :: more, MonomialFactor v D a ∧ a.base = first.base) :
    Meets (mergeFactors f first (first :: more)) (RunRewritten v (first :: more))
      fun _ => True := by
  generalize hitems : first :: more = run at *
  have hne : run ≠ [] := by simp [← hitems]
  obtain ⟨qs, hqs⟩ : ∃ qs, qs = run.map (·.exponent.constantValue) := ⟨_, rfl⟩
  have hexponents : run.map (·.exponent) = qs.map fun q => number (.ofRat q) := by
    rw [hqs, List.map_map]
    exact List.map_congr_left fun a ha => (hrun a ha).1.exponent
  -- the base is the same in every factor, so each is a power of the first one's
  have hpowers : Kept v (product (run.map (·.whole))) (product (qs.map first.base.raise)) := by
    refine Kept.product ?_
    rw [hqs, List.map_map, List.forall₂_map_left_iff, List.forall₂_map_right_iff,
      List.forall₂_same]
    intro a ha
    obtain ⟨hfactor, hbase⟩ := hrun a ha
    have hkept := hfactor.kept
    rwa [hbase] at hkept
  have hfits : ∀ q ∈ qs, Fits q := fun q hq =>
    (hasValue_product.mp hpowers.hasValue _ (List.mem_map_of_mem hq)).allowed.fits
  unfold mergeFactors
  refine (hf _).bind fun x hx => ?_
  rw [hexponents] at hx
  obtain ⟨hterm, hsum⟩ := eq_of_reduce_exponents .sum hfits hx.1
  have hmerged : Kept v (product (run.map (·.whole))) (first.base.raise qs.sum) :=
    hpowers.trans (Kept.raise_sum (by simpa [hqs] using hne) hsum hpowers.hasValue)
  rw [hterm]
  refine (hf.after hmerged hD).bind fun p hp => ?_
  exact hp.kept.trans (.alone hp.kept.hasValue)

/-- Merging like factors leaves the value of the product. -/
theorem RunsMerged.rewritten {items : List Factor} {combined : List Term}
    (h : RunsMerged Factor.whole (RunRewritten v) items (some combined))
    (hitems : (product (items.map (·.whole))).HasValue v) :
    Kept v (product (items.map (·.whole))) (product combined) := by
  obtain ⟨runs, outs, hperm, -, hout, rfl⟩ := h
  have hruns : Kept v (product (items.map (·.whole)))
      (product (runs.flatten.map (·.whole))) :=
    .of_perm hitems (hperm.symm.map _)
  refine hruns.trans ?_
  have hvalue := hruns.hasValue
  clear hruns hperm hitems
  induction hout with
  | nil => exact .refl (hasValue_product.mpr (by simp))
  | @cons run out runs outs hhead _ ih =>
    have hfilter : (out :: outs).filterMap id = out.toList ++ outs.filterMap id := by
      cases out <;> rfl
    rw [List.flatten_cons, List.map_append, hasValue_product, List.forall_mem_append] at hvalue
    obtain ⟨hrun, hrest⟩ := hvalue
    rw [hfilter, List.flatten_cons, List.map_append]
    refine Kept.append ?_ (ih (hasValue_product.mpr hrest))
    rcases hhead with ⟨only, rfl, rfl⟩ | ⟨-, hkept⟩
    · exact .refl (hasValue_product.mpr hrun)
    · exact hkept

/-- Merging the factors of a product keeps its value. Bases that compare equal are equal, as their
constants and the degrees of their roots are told apart. -/
theorem mergeLike_monomial (hf : KeepsMonomials v D f) (hC : ToldApart v.radicand)
    (hE : 0 < D ∧ D ≤ maxDegree) {rest : List Term}
    (hrest : (product rest).HasValue v)
    (hfactors : ∀ t ∈ rest, t.Unsplit ∧ (Factor.ofTerm t).base.Radicand v)
    (hD : (product rest).rootDegree ∣ D) :
    Meets (mergeLike f .product rest)
      (fun out => ∀ combined, out = some combined → Kept v (product rest) (product combined))
      fun _ => True := by
  have hwhole := map_whole Factor.ofTerm_whole rest
  have hitems : ∀ a ∈ rest.map Factor.ofTerm, MonomialFactor v D a := by
    intro a ha
    obtain ⟨t, ht, rfl⟩ := List.mem_map.mp ha
    exact (hasValue_product.mp hrest t ht).factor (hfactors t ht).1 (hfactors t ht).2
      (rootDegree_product_dvd.mp hD t ht)
  refine (mergeRuns_meets (P := fun _ => True) (Q := RunRewritten v)
    (fun a b _ _ => meets_true _) (fun _ _ => trivial) fun first more _ hsub htied => ?_).imp
    fun out hout combined hc => ?_
  · refine mergeFactors_monomial hf ?_ fun a ha => ⟨hitems a (hsub.subset ha), ?_⟩
    · refine rootDegree_product_dvd.mpr fun t ht => ?_
      obtain ⟨a, ha, rfl⟩ := List.mem_map.mp ht
      exact (hitems a (hsub.subset ha)).degree
    · -- factors of one run tie, and monomials that tie are equal
      rcases List.mem_cons.mp ha with rfl | hmem
      · rfl
      · exact ((hitems first (hsub.subset (by simp))).eq_of_tied hC hE
          (hitems a (hsub.subset ha)) (htied a hmem)).symm
  · rw [hc] at hout
    have hkept := RunsMerged.rewritten hout (by rwa [hwhole])
    rwa [hwhole] at hkept

/-! ## Products -/

/-- Putting a product together from its members keeps it. -/
theorem Kept.ofMembers {ts : List Term} (changed : Bool)
    (h : (Term.product ts).HasValue v) :
    Kept v (.product ts) (Term.ofMembers .product ts changed).term := by
  match ts, h with
  | [], _ =>
    -- the product of nothing is the constant one
    have hone : Kept v (.product ([].map fun q : ℚ => .number (.ofRat q))) _ :=
      .constants fun hC _ => hC.one
    exact hone
  | [t], h => exact .single (hasValue_product.mp h t (by simp))
  | t :: u :: ts, h => exact .refl h

/-- A product that is put together from members without exponents to split has none. -/
theorem ofMembers_unsplit {ts : List Term} (changed : Bool) (h : ∀ t ∈ ts, t.Unsplit) :
    (ofMembers .product ts changed).term.Unsplit :=
  ofMembers_cases (unsplit_number 1) h fun _ => .product h

/-- The factors of a product that is put together are those that it was put together from. -/
theorem ofMembers_joinable {ts : List Term} (changed : Bool) (h : ∀ t ∈ ts, t.Joinable v) :
    ∀ m ∈ Operation.product.lift (ofMembers .product ts changed).term, m.Joinable v :=
  ofMembers_cases (Q := fun t => ∀ m ∈ Operation.product.lift t, m.Joinable v)
    (fun _ hm => Joinable.lift (Or.inl ⟨_, rfl⟩) hm) (fun t ht _ hm => (h t ht).lift hm) fun _ => h

/-- One step of reducing a product keeps its value and leaves factors that can be merged. -/
theorem reduceOperation_monomial (hf : KeepsMonomials v D f) (hapart : ToldApart v.radicand)
    (hE : 0 < D ∧ D ≤ maxDegree) {ts : List Term} (hts : (product ts).HasValue v)
    (hD : (product ts).rootDegree ∣ D) :
    Meets (reduceOperation f .product ts) (fun r => ReducesTo v (product ts) r.term)
      fun _ => True := by
  -- the numbers at the front are fractions
  have hnumbers : ∀ {numbers : List Number} {rest : List Term},
      (product (numbers.map number ++ rest)).HasValue v →
      ∃ qs : List ℚ, numbers = qs.map ofRat := by
    intro numbers rest h
    obtain ⟨qs, hqs⟩ : numbers ∈ Set.range (List.map ofRat) := by
      rw [Set.range_list_map]
      intro x hx
      obtain ⟨q, hq, -⟩ := Monomial.of_number (hasValue_product.mp h (number x) (by simp [hx]))
      exact ⟨q, hq.symm⟩
    exact ⟨qs, hqs.symm⟩
  refine reduceOperation_meets (M := fun members _ => MembersRewritten v ts members)
    (reduceMembers_monomial hf hts hD) (fun numbers rest _ hmembers _ hzero => ?_)
    fun numbers rest changed hmembers hlead _ => ?_
  all_goals
    obtain ⟨hkept, hunsplit, hjoinable, hranks⟩ := hmembers
    obtain ⟨qs, rfl⟩ := hnumbers hkept.hasValue
    have hsame : (qs.map ofRat).map number = qs.map fun q => number (.ofRat q) := by
      rw [List.map_map]
      rfl
    rw [hsame] at hkept
  · obtain ⟨x, hx, habs⟩ := List.any_eq_true.mp hzero
    obtain ⟨q, hq, rfl⟩ := List.mem_map.mp hx
    rw [(isZero_ofRat q).mp habs] at hq
    exact reducesTo_number (hkept.trans (.absorbed hq))
  · have hall := hasValue_product.mp hkept.hasValue
    have hrest : (product rest).HasValue v :=
      hasValue_product.mpr fun t ht => hall t (by simp [ht])
    have hrestD : (product rest).rootDegree ∣ D := rootDegree_product_dvd.mpr fun t ht =>
      rootDegree_product_dvd.mp (hkept.degree.trans hD) t (by simp [ht])
    have hfactors : ∀ t ∈ rest, t.Unsplit ∧ (Factor.ofTerm t).base.Radicand v := by
      intro t ht
      have hother := isNumber_behind hranks hlead t ht
      refine ⟨hunsplit t (by simp [ht]), (hjoinable t (by simp [ht])).resolve_left ?_⟩
      rintro ⟨x, rfl⟩
      cases hother
    refine (mergeNumbers_monomial (v := v) qs rest.isEmpty).imp fun merged hmerged => ?_
    refine (mergeLike_monomial hf hapart hE hrest hfactors hrestD).imp
      fun like hlike => ⟨fun combined hc => ?_, fun _ => ?_⟩
    · exact hf.after (hkept.trans (hmerged.append (hlike combined hc))) hD
    · have hmembers := hkept.trans (hmerged.append (.refl hrest))
      have hmember : ∀ t ∈ merged.1.map number ++ rest, t.Unsplit ∧ t.Joinable v := by
        refine fun t ht => (List.mem_append.mp ht).elim (fun ht => ?_) fun ht =>
          ⟨(hfactors t ht).1, Or.inr (hfactors t ht).2⟩
        obtain ⟨x, hx, rfl⟩ := List.mem_map.mp ht
        obtain ⟨q, rfl, -⟩ := Monomial.of_number
          (hasValue_product.mp hmerged.hasValue _ (List.mem_map_of_mem hx))
        exact ⟨unsplit_number q, Or.inl ⟨_, rfl⟩⟩
      exact ⟨hmembers.trans (.ofMembers _ hmembers.hasValue),
        ofMembers_unsplit _ fun t ht => (hmember t ht).1,
        ofMembers_joinable _ fun t ht => (hmember t ht).2⟩

/-! ## Powers -/

/-- A power of a constant, if the exponent is whole. -/
theorem numberPower?_monomial {p q : ℚ} (h : ((number (.ofRat p)).raise q).HasValue v)
    (changed : Bool) (hq : IsUnsplit q) :
    Meets (combinePower f (number (.ofRat p)) (number (.ofRat q))
        (if q.den = 1 then some q.num else none) changed)
      (fun r => ReducesTo v ((number (.ofRat p)).raise q) r.term) fun _ => True := by
  rw [combinePower]
  by_cases hone : q.den = 1
  · rw [if_pos hone, numberPower?]
    have hwhole : (q.num : ℚ) = q := Rat.coe_int_num_of_den_eq_one hone
    have hdefined : 0 ≤ q.num ∨ p ≠ 0 := by
      refine h.allowed.notInverted.imp Rat.num_nonneg.mpr fun hne hzero => hne ?_
      rw [hzero, realAt_number, map_zero]
    refine Meets.bind (P := fun out => ∃ y, out = some y ∧
      ReducesTo v ((number (.ofRat p)).raise q) (number y)) (Meets.map ?_) ?_
    · refine (powInt_ofRat hdefined).mono (fun y hy => ⟨y, rfl, ?_⟩) fun _ _ => trivial
      obtain ⟨rfl, hfits⟩ := hy
      have hkept : Kept v ((number (.ofRat p)).raise (q.num : ℚ)) _ := .number_raise hfits
      rw [hwhole] at hkept
      exact reducesTo_number hkept
    · rintro _ ⟨y, rfl, hto⟩
      exact hto
  · rw [if_neg hone]
    exact reducesTo_power (.refl h) (unsplit_number p) hq (h.allowed.root hone)

/-- The root of a power stays so if the product of the exponents would be split again. -/
theorem HasValue.radicand_of_split {b : Term} {p q : ℚ} (h : ((b.raise p).raise q).HasValue v)
    (hsplit : (splitExponent? (number (.ofRat (p * q)))).isSome = true) :
    (b.raise p).Radicand v := by
  by_cases hone : q.den = 1
  · refine (h.base.allowed.root fun hp => ?_).raise p
    -- a product of whole exponents is whole
    have hden : (p * q).den = 1 := by
      have hdvd := Rat.mul_den_dvd p q
      rw [hp, hone, mul_one] at hdvd
      exact Nat.dvd_one.mp hdvd
    rw [ofRat, splitExponent?, hden, if_neg (fun hboth => hboth.2 rfl)] at hsplit
    cases hsplit
  · exact h.allowed.root hone

/-- Combining the base of a monomial with its exponent keeps the value, by multiplying exponents,
raising constants or raising each factor. -/
theorem combinePower_monomial (hf : KeepsMonomials v D f) {b : Term} {q : ℚ}
    (h : (b.raise q).HasValue v) (hD : (b.raise q).rootDegree ∣ D) (hb : b.Unsplit)
    (hq : IsUnsplit q) (changed : Bool) :
    Meets (combinePower f b (number (.ofRat q)) (if q.den = 1 then some q.num else none) changed)
      (fun r => ReducesTo v (b.raise q) r.term) fun _ => True := by
  cases b with
  | number x =>
    obtain ⟨p, rfl, -⟩ := Monomial.of_number h.base
    exact numberPower?_monomial h changed hq
  | power b' e' =>
    obtain ⟨p, rfl, -⟩ := Monomial.exponent h.base
    rw [combinePower]
    -- the product of the exponents is reduced first, and is a constant again
    refine (hf _).bind fun x hx => ?_
    have hboth : ∀ a ∈ [p, q], Fits a := by
      simp only [List.forall_mem_cons, List.not_mem_nil, false_implies, implies_true, and_true]
      exact ⟨h.base.allowed.fits, h.allowed.fits⟩
    obtain ⟨hterm, hfits⟩ := eq_of_reduce_exponents .product hboth hx.1
    have hproduct : Operation.product.fold [p, q] = p * q := by
      rw [Operation.fold_cons, Operation.fold_cons, Operation.fold_nil]
      exact congrArg (p * ·) (mul_one q)
    rw [hproduct] at hterm hfits
    rw [hterm]
    by_cases hsplit : (splitExponent? (number (.ofRat (p * q)))).isSome = true
    · rw [if_pos hsplit]
      exact reducesTo_power (.refl h) hb hq (h.radicand_of_split hsplit)
    · rw [if_neg hsplit]
      exact (hf.after (.raise_raise h hfits) hD).bind fun r hr => hr
  | product ts =>
    rw [combinePower]
    exact (hf.after (.product_raise h) hD).bind fun r hr => hr
  | var name => exact reducesTo_power (.refl h) hb hq (.var trivial)
  | sum ts => cases h.base
  | call c ts => cases h.base

/-- One step of reducing a power keeps its value. -/
theorem reducePower_monomial (hf : KeepsMonomials v D f) {b : Term} {q : ℚ}
    (h : (b.raise q).HasValue v) (hD : (b.raise q).rootDegree ∣ D)
    (hb : ReducesTo v b b) (changed : Bool) :
    Meets (reducePower f b (number (.ofRat q)) changed)
      (fun r => ReducesTo v (b.raise q) r.term) fun _ => True := by
  have hpos : (0 : ℤ) < q.den := by exact_mod_cast q.den_pos
  refine reducePower_meets (fun n d hsplit => ?_) fun hsplit => ?_
  · -- an exponent that is split is a power and a root of that
    obtain ⟨rfl, rfl⟩ := Number.ratio.inj (Term.number.inj (Leaves.eq_of_splitExponent? hsplit))
    have hroot : Number.ratio 1 q.den = ofRat (1 / (q.den : ℚ)) := by
      have hone := ratio_eq_ofRat hpos (n := 1) Int.one_gcd
      rwa [Int.cast_one, Int.cast_natCast] at hone
    rw [ratio_one_eq_ofRat, hroot]
    exact hf.after (.raise_split h) hD
  · -- one that is not is one, zero, or combined with the base
    have hunsplit : IsUnsplit q := by
      by_contra hnot
      obtain ⟨hnum, hden⟩ := not_or.mp hnot
      have hden' : (q.den : ℤ) ≠ 1 := by exact_mod_cast hden
      rw [ofRat, splitExponent?, if_pos ⟨hnum, hden'⟩] at hsplit
      cases hsplit
    rw [show wholeExponent? (number (.ofRat q)) = _ from whole?_ofRat q, meets_ok]
    refine ⟨fun hone => ?_, fun hzero => ?_, fun _ _ =>
      combinePower_monomial hf h hD hb.unsplit hunsplit changed⟩
    · have hq : q = 1 := by rw [eq_of_whole hone, Int.cast_one]
      rw [hq] at h ⊢
      exact ⟨.raise_one h, hb.unsplit, hb.joinable⟩
    · have hq : q = 0 := by rw [eq_of_whole hzero, Int.cast_zero]
      rw [hq]
      exact reducesTo_number (.raise_zero b)

/-! ## All monomials -/

/-- One step of reduction keeps the value of a monomial, if the reductions that it asks for do. -/
theorem reduceStep_monomial (hf : KeepsMonomials v D f) (hapart : ToldApart v.radicand)
    (hE : 0 < D ∧ D ≤ maxDegree) {t : Term} (ht : t.HasValue v) (hD : t.rootDegree ∣ D) :
    Meets (reduceStep f t) (fun r => ReducesTo v t r.term) fun _ => True := by
  cases t with
  | number x =>
    obtain ⟨q, rfl, -⟩ := Monomial.of_number ht
    exact reducesTo_number (.refl ht)
  | var name =>
    have hradicand : (var name).Radicand v := .var trivial
    exact ⟨.refl ht, .var trivial, fun m hm => (Joinable.of_radicand hradicand).lift hm⟩
  | product ts => exact reduceOperation_monomial hf hapart hE ht hD
  | power b e =>
    obtain ⟨q, rfl, hq⟩ := Monomial.exponent ht
    rw [reduceStep]
    have hbase : b.rootDegree ∣ D := by
      rw [rootDegree_raise] at hD
      exact dvd_of_mul_left_dvd hD
    refine (hf.after (.refl ht.base) hbase).bind fun rb hrb => ?_
    refine (hf _).bind fun re hre => ?_
    -- a number is its own reduced form
    have hsame := ((reduce_shrinks _).of_ok hre.1).number rfl
    rw [hsame]
    have hraised := hrb.kept.raise hq
    refine (reducePower_monomial hf hraised.hasValue (hraised.degree.trans hD)
      ⟨.refl hrb.kept.hasValue, hrb.unsplit, hrb.joinable⟩ _).imp fun r hr => ?_
    exact ⟨hraised.trans hr.kept, hr.unsplit, hr.joinable⟩
  | sum ts => cases ht
  | call c ts => cases ht

/-- What a monomial is reduced to has its value. -/
theorem reduce_monomial (hapart : ToldApart v.radicand) (hE : 0 < D ∧ D ≤ maxDegree)
    {t : Term} (ht : t.HasValue v) (hD : t.rootDegree ∣ D) :
    Meets t.reduce (fun r => ReducesTo v t r.term) fun _ => True := by
  have hall := reduce_induction (D := fun _ => True)
    (Q := fun t r => t.HasValue v → t.rootDegree ∣ D → ReducesTo v t r.term)
    (E := fun _ _ => True) (fun f hf t _ => ?_) t trivial
  · exact hall.imp fun r hr => hr ht hD
  · have hkeeps : KeepsMonomials v D f := fun u =>
      (hf u trivial).mono (fun _ h => h) fun _ _ => trivial
    by_cases hvalue : t.HasValue v ∧ t.rootDegree ∣ D
    · exact (reduceStep_monomial hkeeps hapart hE hvalue.1 hvalue.2).mono
        (fun r hr _ _ => hr) fun _ _ => Or.inr trivial
    · exact (meets_true _).mono (fun r _ ht hD => absurd ⟨ht, hD⟩ hvalue) fun _ _ =>
        Or.inr trivial

end Mathpad.Term
