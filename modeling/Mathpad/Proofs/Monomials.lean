import Mathlib.Algebra.BigOperators.Group.List.Basic
import Mathlib.Algebra.GCDMonoid.Nat
import Mathpad.Proofs.Nearness
import Mathpad.Proofs.Operations
import Mathpad.Proofs.RealPowers

/-!
# Monomials with fractional exponents

A monomial is made of constants, variables, products, and powers with fractions as exponents.
Where it inverts no zero and takes no even root of anything negative it has a value in the real
numbers, and there the laws of exponents rewrite it without changing that value. Each law is
stated once, as a relation between the two sides.
-/
set_option autoImplicit false

namespace Mathpad

open Number

/-- What fractions count as, the values of the variables, and the fractions that roots may be
taken of. -/
structure Interpretation where
  constant : ℚ →*₀ ℝ
  name : String → ℝ
  radicand : ℚ → Prop
  closed : ClosedUnderPowers radicand

/-- Fractions count as `c` says, also where they are the values of variables. -/
def Interpretation.of (c : ℚ →*₀ ℝ) (ρ : String → ℚ) {C : ℚ → Prop} (hC : ClosedUnderPowers C) :
    Interpretation :=
  ⟨c, fun name => c (ρ name), C, hC⟩

/-- A fraction is known from the number that is made of it. -/
theorem Number.ofRat_injective {p q : ℚ} (h : ofRat p = ofRat q) : p = q := by
  rw [← value_ofRat p, h, value_ofRat]

namespace Term

/-- A term with a fraction as its exponent. -/
abbrev raise (b : Term) (q : ℚ) : Term := .power b (.number (.ofRat q))

/-- A term of constants, variables, products and powers with fractions as exponents. Each constant
satisfies `C`, each name `V`, and each power `W`, which looks at the base and the exponent. -/
inductive Monomial (C : ℚ → Prop) (V : String → Prop) (W : Term → ℚ → Prop) : Term → Prop
  | number {q : ℚ} (h : C q) : Monomial C V W (.number (.ofRat q))
  | var {name : String} (h : V name) : Monomial C V W (.var name)
  | product {ts : List Term} (h : ∀ t ∈ ts, Monomial C V W t) : Monomial C V W (.product ts)
  | power {b : Term} {q : ℚ} (hb : Monomial C V W b) (hq : W b q) : Monomial C V W (b.raise q)

namespace Monomial

variable {C C' : ℚ → Prop} {V V' : String → Prop} {W W' : Term → ℚ → Prop} {t b e : Term}
  {ts : List Term}

/-- A constant of a monomial is a fraction with the property of constants. -/
theorem of_number {x : Number} (h : Monomial C V W (.number x)) : ∃ q, x = .ofRat q ∧ C q := by
  generalize ht : Term.number x = t at h
  cases h with
  | number h => exact ⟨_, Term.number.inj ht, h⟩
  | _ => cases ht

/-- A variable of a monomial has the property of names. -/
theorem of_var {name : String} (h : Monomial C V W (.var name)) : V name := by
  cases h with
  | var h => exact h

/-- The members of a product that is a monomial are monomials. -/
theorem members (h : Monomial C V W (.product ts)) : ∀ t ∈ ts, Monomial C V W t := by
  cases h with
  | product h => exact h

/-- The base of a power that is a monomial is one. -/
theorem base (h : Monomial C V W (.power b e)) : Monomial C V W b := by
  cases h with
  | power hb _ => exact hb

/-- The exponent of a power that is a monomial is a fraction with the property that exponents of
this base have. -/
theorem exponent (h : Monomial C V W (.power b e)) : ∃ q, e = .number (.ofRat q) ∧ W b q := by
  cases h with
  | power _ hq => exact ⟨_, rfl, hq⟩

theorem of_raise {q : ℚ} (h : Monomial C V W (b.raise q)) : W b q := by
  obtain ⟨p, hp, hw⟩ := h.exponent
  rwa [ofRat_injective (Term.number.inj hp)]

/-- What is a monomial of some kind is a monomial of every wider kind. The condition on powers needs
to be wider only for bases that are monomials. -/
theorem imp (h : Monomial C V W t) (hC : ∀ q, C q → C' q) (hV : ∀ name, V name → V' name)
    (hW : ∀ b q, Monomial C V W b → W b q → W' b q) : Monomial C' V' W' t := by
  induction h with
  | number h => exact .number (hC _ h)
  | var h => exact .var (hV _ h)
  | product _ ih => exact .product ih
  | power hb hq ih => exact .power ih (hW _ _ hb hq)

/-- A monomial of two kinds is one whose constants, names and powers are of both. -/
theorem and (h : Monomial C V W t) (h' : Monomial C' V' W' t) :
    Monomial (fun q => C q ∧ C' q) (fun name => V name ∧ V' name)
      (fun b q => W b q ∧ W' b q) t := by
  induction h with
  | number h =>
    obtain ⟨p, hp, hc⟩ := h'.of_number
    rw [ofRat_injective hp] at h ⊢
    exact .number ⟨h, hc⟩
  | var h => exact .var ⟨h, h'.of_var⟩
  | product _ ih => exact .product fun t ht => ih t ht (h'.members t ht)
  | power hb hq ih => exact .power (ih h'.base) ⟨hq, h'.of_raise⟩

/-- Monomials that compare equal are equal, if comparison tells their constants apart and their
exponents. -/
theorem eq_of_tied (hC : ToldApart C)
    (hW : ∀ b p q, W b p → W b q → (ofRat p).order (ofRat q) = .ok .eq → p = q) {u : Term}
    (ht : Monomial C V W t) (hu : Monomial C V W u) (h : Tied t u) : t = u := by
  -- what ties has the same form, and its parts tie in turn
  induction ht generalizing u with
  | number hq =>
    cases h.tieCases with
    | number hxy =>
      obtain ⟨p, rfl, hp⟩ := hu.of_number
      rw [hC _ _ hq hp hxy]
  | var _ =>
    cases h.tieCases with
    | var => rfl
  | product hts ih =>
    cases h.tieCases with
    | product htied =>
      congr 1
      have hus := hu.members
      clear hts hu h
      induction htied with
      | nil => rfl
      | cons hhead _ ihtail =>
        have hrest := ihtail (fun t ht => ih t (by simp [ht])) fun u hu => hus u (by simp [hu])
        rw [ih _ (by simp) (hus _ (by simp)) hhead, hrest]
  | power _ hq ih =>
    cases h.tieCases with
    | power hb he =>
      obtain ⟨p, rfl, hp⟩ := hu.exponent
      obtain rfl := ih hu.base hb
      cases he.tieCases with
      | number hxy => rw [hW _ _ _ hq hp hxy]

end Monomial

/-! ## Values and degrees -/

/-- The number that a constant stands for. -/
def constantValue : Term → ℚ
  | number x => x.value
  | _ => 0

mutual

/-- The real number that a monomial stands for. -/
noncomputable def realAt (v : Interpretation) : Term → ℝ
  | number x => v.constant x.value
  | var name => v.name name
  | product ts => realProduct v ts
  | power b e => realPower (b.realAt v) e.constantValue
  | sum _ => 0
  | call _ _ => 0

/-- The product of the real numbers that some monomials stand for. -/
noncomputable def realProduct (v : Interpretation) : List Term → ℝ
  | [] => 1
  | t :: ts => t.realAt v * realProduct v ts

end

mutual

/-- A degree that has room for all roots in a monomial that are taken of each other. -/
def rootDegree : Term → Nat
  | product ts => rootDegrees ts
  | power b e => e.constantValue.den * b.rootDegree
  | number _ => 1
  | var _ => 1
  | sum _ => 1
  | call _ _ => 1

/-- The least common multiple of the degrees of some monomials. -/
def rootDegrees : List Term → Nat
  | [] => 1
  | t :: ts => Nat.lcm t.rootDegree (rootDegrees ts)

end

variable {C : ℚ → Prop} {v : Interpretation}

theorem realAt_number (q : ℚ) : (number (.ofRat q)).realAt v = v.constant q := by
  rw [realAt, value_ofRat]

/-- A power is worth the real power of the worth of its base. -/
theorem realAt_raise (b : Term) (q : ℚ) : (b.raise q).realAt v = realPower (b.realAt v) q := by
  rw [realAt, constantValue, value_ofRat]

/-- A product is worth the product of the worths of its members. -/
theorem realAt_product (ts : List Term) :
    (product ts).realAt v = (ts.map (realAt v)).prod := by
  rw [realAt]
  induction ts with
  | nil => rfl
  | cons t ts ih => rw [realProduct, ih, List.map_cons, List.prod_cons]

/-- A root in a power goes on top of the roots in the base, so the degrees are multiplied. -/
theorem rootDegree_raise (b : Term) (q : ℚ) : (b.raise q).rootDegree = q.den * b.rootDegree := by
  rw [rootDegree, constantValue, value_ofRat]

theorem rootDegree_pos (t : Term) : 0 < t.rootDegree := by
  induction t using parts_induction with
  | number x => exact Nat.one_pos
  | var name => exact Nat.one_pos
  | product ts ih =>
    rw [rootDegree]
    induction ts with
    | nil => exact Nat.one_pos
    | cons t ts ihts =>
      exact Nat.lcm_pos (ih t (by simp)) (ihts fun t ht => ih t (by simp [ht]))
  | power b e ihb _ => exact Nat.mul_pos e.constantValue.den_pos ihb
  | sum ts _ => exact Nat.one_pos
  | call c ts _ => exact Nat.one_pos

/-- The degrees in a product divide what the degrees of all members divide. -/
theorem rootDegree_product_dvd {ts : List Term} {D : Nat} :
    (product ts).rootDegree ∣ D ↔ ∀ t ∈ ts, t.rootDegree ∣ D := by
  rw [rootDegree]
  induction ts with
  | nil => simp [rootDegrees]
  | cons t ts ih => rw [rootDegrees, Nat.lcm_dvd_iff, ih, List.forall_mem_cons]

/-- What all denominators divide, the denominator of the sum divides. -/
theorem den_sum_mul_dvd {qs : List ℚ} {d D : Nat} (hne : qs ≠ [])
    (h : ∀ q ∈ qs, q.den * d ∣ D) : qs.sum.den * d ∣ D := by
  obtain ⟨p, hp⟩ := List.exists_mem_of_ne_nil qs hne
  have hd : d ∣ D := dvd_of_mul_left_dvd (h p hp)
  clear hne hp
  induction qs with
  | nil => simpa using hd
  | cons q qs ih =>
    have hrest := ih fun p hp => h p (by simp [hp])
    rw [List.sum_cons]
    refine (Nat.mul_dvd_mul_right (Rat.add_den_dvd_lcm q qs.sum) d).trans ?_
    rw [← Nat.lcm_mul_right]
    exact Nat.lcm_dvd (h q (by simp)) hrest

/-- The degrees of the roots in a monomial divide the degree of the monomial. -/
theorem Monomial.den_dvd {V : String → Prop} {W : Term → ℚ → Prop} {t : Term} {D : Nat}
    (h : Monomial C V W t) (hD : t.rootDegree ∣ D) :
    Monomial C V (fun b q => W b q ∧ q.den ∣ D) t := by
  induction h with
  | number h => exact .number h
  | var h => exact .var h
  | product _ ih => exact .product fun t ht => ih t ht (rootDegree_product_dvd.mp hD t ht)
  | power _ hq ih =>
    rw [rootDegree_raise] at hD
    exact .power (ih (dvd_of_mul_left_dvd hD)) ⟨hq, dvd_of_mul_right_dvd hD⟩

/-- A monomial of constants in `C` and names in `V`. -/
def MadeOf (C : ℚ → Prop) (V : String → Prop) (t : Term) : Prop :=
  Monomial C V (fun _ _ => True) t

/-- A monomial without negative constants and variables. -/
def Nonneg (v : Interpretation) (t : Term) : Prop :=
  t.MadeOf (fun q => 0 ≤ v.constant q) fun name => 0 ≤ v.name name

/-- A monomial that roots may be taken of. -/
def Radicand (v : Interpretation) (t : Term) : Prop := t.MadeOf v.radicand fun _ => True

/-- The root in a power is one that may be taken, and no even root of anything negative. -/
structure Rooted (v : Interpretation) (b : Term) (q : ℚ) : Prop where
  fits : Fits q
  even : Even q.den → b.Nonneg v
  root : q.den ≠ 1 → b.Radicand v

/-- Such a power that inverts no zero either. -/
structure Allowed (v : Interpretation) (b : Term) (q : ℚ) : Prop extends Rooted v b q where
  notInverted : NotInverted (b.realAt v) q

/-- A monomial that has a value. -/
def HasValue (v : Interpretation) (t : Term) : Prop :=
  Monomial (fun _ => True) (fun _ => True) (Allowed v) t

/-- Numbers of nonnegative worth are closed under powers, so they can be the constants of a
monomial. -/
theorem nonneg_closed (v : Interpretation) : ClosedUnderPowers fun q => 0 ≤ v.constant q where
  one := by
    rw [map_one]
    exact zero_le_one
  mul hp hq _ := by
    rw [map_mul]
    exact mul_nonneg hp hq
  zpow n hq _ := by
    rw [map_zpow₀]
    exact zpow_nonneg hq n

/-- A monomial of nonnegative constants and variables is worth no negative number. -/
theorem Nonneg.realAt {t : Term} (h : t.Nonneg v) : 0 ≤ t.realAt v := by
  induction h with
  | number h =>
    rw [realAt_number]
    exact h
  | var h => exact h
  | product _ ih =>
    rw [realAt_product]
    refine List.prod_nonneg fun x hx => ?_
    obtain ⟨t, ht, rfl⟩ := List.mem_map.mp hx
    exact ih t ht
  | power _ _ ih =>
    rw [realAt_raise]
    exact realPower_nonneg ih _

section Parts

variable {V : String → Prop} {b : Term} {q : ℚ} {ts : List Term}

theorem MadeOf.raise (h : b.MadeOf C V) (q : ℚ) : (b.raise q).MadeOf C V := .power h trivial

theorem MadeOf.base (h : (b.raise q).MadeOf C V) : b.MadeOf C V := Monomial.base h

theorem madeOf_product : (product ts).MadeOf C V ↔ ∀ t ∈ ts, t.MadeOf C V :=
  ⟨Monomial.members, .product⟩

/-- A power has a value if its base has one and the root may be taken. -/
theorem HasValue.raise (hb : b.HasValue v) (hq : Allowed v b q) : (b.raise q).HasValue v :=
  .power hb hq

theorem HasValue.base (h : (b.raise q).HasValue v) : b.HasValue v := Monomial.base h

theorem HasValue.allowed (h : (b.raise q).HasValue v) : Allowed v b q := Monomial.of_raise h

/-- A product has a value if and only if all members have. -/
theorem hasValue_product : (product ts).HasValue v ↔ ∀ t ∈ ts, t.HasValue v :=
  ⟨Monomial.members, .product⟩

end Parts

/-! ## Monomials of one value -/

/-- What a monomial is rewritten as has its value, and is made of constants that come from its own,
of the same names, and of roots of no higher degree. -/
structure Kept (v : Interpretation) (t u : Term) : Prop where
  hasValue : u.HasValue v
  realAt_eq : u.realAt v = t.realAt v
  madeOf {C : ℚ → Prop} {V : String → Prop} : ClosedUnderPowers C → t.MadeOf C V → u.MadeOf C V
  degree : u.rootDegree ∣ t.rootDegree

namespace Kept

variable {t u w : Term} {ts us : List Term}

theorem refl (h : t.HasValue v) : Kept v t t := ⟨h, rfl, fun _ ht => ht, dvd_refl _⟩

theorem trans (h : Kept v t u) (h' : Kept v u w) : Kept v t w :=
  ⟨h'.hasValue, h'.realAt_eq.trans h.realAt_eq, fun hC ht => h'.madeOf hC (h.madeOf hC ht),
    h'.degree.trans h.degree⟩

theorem nonneg (h : Kept v t u) (ht : t.Nonneg v) : u.Nonneg v := h.madeOf (nonneg_closed v) ht

theorem radicand (h : Kept v t u) (ht : t.Radicand v) : u.Radicand v := h.madeOf v.closed ht

/-! ### Products -/

/-- The members of a product may be put in any other order. -/
theorem of_perm (hts : (product ts).HasValue v) (h : ts.Perm us) :
    Kept v (product ts) (product us) where
  hasValue := hasValue_product.mpr fun u hu => hasValue_product.mp hts u (h.symm.subset hu)
  realAt_eq := by
    rw [realAt_product, realAt_product]
    exact (h.symm.map _).prod_eq
  madeOf _ hm := madeOf_product.mpr fun u hu => madeOf_product.mp hm u (h.symm.subset hu)
  degree := rootDegree_product_dvd.mpr fun u hu =>
    rootDegree_product_dvd.mp (dvd_refl _) u (h.symm.subset hu)

theorem append {ts' us' : List Term} (h : Kept v (product ts) (product us))
    (h' : Kept v (product ts') (product us')) :
    Kept v (product (ts ++ ts')) (product (us ++ us')) where
  hasValue := hasValue_product.mpr fun u hu => (List.mem_append.mp hu).elim
    (hasValue_product.mp h.hasValue u) (hasValue_product.mp h'.hasValue u)
  realAt_eq := by
    have hvalue := h.realAt_eq
    have hvalue' := h'.realAt_eq
    rw [realAt_product, realAt_product] at hvalue hvalue' ⊢
    rw [List.map_append, List.map_append, List.prod_append, List.prod_append, hvalue, hvalue']
  madeOf hC hm := by
    have hall := madeOf_product.mp hm
    have hts := h.madeOf hC (madeOf_product.mpr fun t ht => hall t (by simp [ht]))
    have hts' := h'.madeOf hC (madeOf_product.mpr fun t ht => hall t (by simp [ht]))
    exact madeOf_product.mpr fun u hu => (List.mem_append.mp hu).elim
      (madeOf_product.mp hts u) (madeOf_product.mp hts' u)
  degree := by
    have hall := rootDegree_product_dvd.mp (dvd_refl (product (ts ++ ts')).rootDegree)
    have hts : (product us).rootDegree ∣ (product (ts ++ ts')).rootDegree :=
      h.degree.trans (rootDegree_product_dvd.mpr fun t ht => hall t (by simp [ht]))
    have hts' : (product us').rootDegree ∣ (product (ts ++ ts')).rootDegree :=
      h'.degree.trans (rootDegree_product_dvd.mpr fun t ht => hall t (by simp [ht]))
    exact rootDegree_product_dvd.mpr fun u hu => (List.mem_append.mp hu).elim
      (rootDegree_product_dvd.mp hts u) (rootDegree_product_dvd.mp hts' u)

/-- A product of one monomial. -/
theorem single (h : t.HasValue v) : Kept v (product [t]) t where
  hasValue := h
  realAt_eq := by simp [realAt_product]
  madeOf _ hm := madeOf_product.mp hm t (by simp)
  degree := rootDegree_product_dvd.mp (dvd_refl _) t (by simp)

/-- A monomial may be taken for the product of itself alone. -/
theorem alone (h : t.HasValue v) : Kept v t (product [t]) where
  hasValue := hasValue_product.mpr (by simpa using h)
  realAt_eq := by simp [realAt_product]
  madeOf _ hm := madeOf_product.mpr (by simpa using hm)
  degree := rootDegree_product_dvd.mpr (by simp)

/-- Each member is rewritten as a product, and these are joined. -/
theorem join {uss : List (List Term)}
    (h : List.Forall₂ (fun t us => Kept v t (product us)) ts uss) :
    Kept v (product ts) (product uss.flatten) := by
  induction h with
  | nil => exact refl (hasValue_product.mpr (by simp))
  | @cons t us ts uss hhead _ ih =>
    have hsingle : Kept v (product [t]) (product us) := by
      refine ⟨hhead.hasValue, ?_, fun hC hm => hhead.madeOf hC (madeOf_product.mp hm t (by simp)),
        ?_⟩
      · rw [hhead.realAt_eq]
        simp [realAt_product]
      · exact hhead.degree.trans (rootDegree_product_dvd.mp (dvd_refl _) t (by simp))
    exact hsingle.append ih

/-- Each member of a product may be rewritten by itself. -/
theorem product (h : List.Forall₂ (Kept v) ts us) : Kept v (product ts) (product us) := by
  have hjoin : Kept v (.product ts) (.product (us.map fun u => [u]).flatten) := by
    refine join ?_
    rw [List.forall₂_map_right_iff]
    exact h.imp fun t u htu => htu.trans (alone htu.hasValue)
  have hflat : (us.map fun u => [u]).flatten = us := by
    rw [← List.flatMap_def]
    exact List.flatMap_singleton' us
  rwa [hflat] at hjoin

/-- What is spliced into a product, the members of a product or anything else, keeps the monomial.
-/
theorem lift (h : t.HasValue v) : Kept v t (.product (Operation.product.lift t)) := by
  rcases Operation.product.lift_cases t with hlift | ⟨ts, rfl, hlift⟩
  · rw [hlift]
    exact alone h
  · rw [hlift]
    exact refl h

/-! ### Powers -/

variable {b b' : Term} {p q : ℚ}

/-- Where a root may be taken of a monomial, it may be taken of what the monomial is rewritten as:
the constants are closed under powers, and a base that is not negative does not become so. -/
theorem allowed (hb : Kept v b b') (h : Allowed v b q) : Allowed v b' q where
  fits := h.fits
  notInverted := by
    rw [hb.realAt_eq]
    exact h.notInverted
  even heven := hb.nonneg (h.even heven)
  root hden := hb.radicand (h.root hden)

/-- The base of a power may be rewritten. -/
theorem raise (hb : Kept v b b') (h : Allowed v b q) : Kept v (b.raise q) (b'.raise q) where
  hasValue := hb.hasValue.raise (hb.allowed h)
  realAt_eq := by rw [realAt_raise, realAt_raise, hb.realAt_eq]
  madeOf hC hm := (hb.madeOf hC hm.base).raise q
  degree := by
    rw [rootDegree_raise, rootDegree_raise]
    exact Nat.mul_dvd_mul_left _ hb.degree

theorem raise_one (h : (b.raise 1).HasValue v) : Kept v (b.raise 1) b where
  hasValue := h.base
  realAt_eq := by rw [realAt_raise, realPower_one]
  madeOf _ hm := hm.base
  degree := by
    rw [rootDegree_raise]
    exact dvd_mul_left _ _

theorem to_raise_one (h : b.HasValue v) : Kept v b (b.raise 1) where
  hasValue := h.raise ⟨⟨fits_one, fun heven => absurd heven (by decide),
    fun hden => absurd rfl hden⟩, Or.inl zero_le_one⟩
  realAt_eq := by rw [realAt_raise, realPower_one]
  madeOf _ hm := hm.raise 1
  degree := by rw [rootDegree_raise, Rat.den_one, one_mul]

/-- A zeroth power may be replaced by one, whatever its base is worth. -/
theorem raise_zero (b : Term) : Kept v (b.raise 0) (number (.ofRat 1)) where
  hasValue := .number trivial
  realAt_eq := by rw [realAt_raise, realPower_zero, realAt_number, map_one]
  madeOf hC _ := .number hC.one
  degree := one_dvd _

/-- A whole power of a constant. -/
theorem number_raise {n : Int} (hfits : Fits (p ^ n)) :
    Kept v ((number (.ofRat p)).raise n) (number (.ofRat (p ^ n))) where
  hasValue := .number trivial
  realAt_eq := by
    rw [realAt_raise, realAt_number, realAt_number, realPower_intCast, map_zpow₀]
  madeOf hC hm := by
    obtain ⟨p', hp', hCp⟩ := Monomial.of_number hm.base
    rw [← ofRat_injective hp'] at hCp
    exact .number (hC.zpow n hCp hfits)
  degree := one_dvd _

/-- A power of a power, whose exponents are multiplied. -/
theorem raise_raise (h : ((b.raise p).raise q).HasValue v) (hfits : Fits (p * q)) :
    Kept v ((b.raise p).raise q) (b.raise (p * q)) := by
  have hp : Allowed v b p := h.base.allowed
  have hq : Allowed v (b.raise p) q := h.allowed
  have hnonneg : Even p.den ∨ Even q.den → b.Nonneg v := fun heven =>
    heven.elim hp.even fun heven => (hq.even heven).base
  have hradicand : p.den ≠ 1 ∨ q.den ≠ 1 → b.Radicand v := fun hden =>
    hden.elim hp.root fun hden => (hq.root hden).base
  have hden : (p * q).den ∣ p.den * q.den := Rat.mul_den_dvd p q
  have hinverted := hq.notInverted
  rw [realAt_raise] at hinverted
  -- an even denominator of the product comes from one of the two, and so does a denominator at all
  refine ⟨h.base.base.raise ⟨⟨hfits, fun heven => ?_, fun hroot => ?_⟩, ?_⟩, ?_,
    fun _ hm => hm.base.base.raise _, ?_⟩
  · exact hnonneg (Nat.even_mul.mp (even_iff_two_dvd.mpr ((even_iff_two_dvd.mp heven).trans hden)))
  · refine hradicand ?_
    by_contra hone
    obtain ⟨hp1, hq1⟩ : p.den = 1 ∧ q.den = 1 := by simpa using hone
    rw [hp1, hq1, mul_one] at hden
    exact hroot (Nat.dvd_one.mp hden)
  · by_cases hzero : b.realAt v = 0
    · have hp0 : 0 ≤ p := hp.notInverted.resolve_right (by simp [hzero])
      rcases hp0.eq_or_lt with rfl | hpos
      · rw [zero_mul]
        exact Or.inl le_rfl
      · rw [hzero, zero_realPower hpos.ne'] at hinverted
        exact Or.inl (mul_nonneg hp0 (hinverted.resolve_right (by simp)))
    · exact Or.inr hzero
  · rw [realAt_raise, realAt_raise, realAt_raise]
    exact (realPower_realPower hp.notInverted hinverted fun heven => (hnonneg heven).realAt).symm
  · rw [rootDegree_raise, rootDegree_raise, rootDegree_raise, ← mul_assoc, mul_comm q.den]
    exact Nat.mul_dvd_mul_right hden _

/-- A power whose exponent is taken apart into numerator and denominator. -/
theorem raise_split (h : (b.raise q).HasValue v) :
    Kept v (b.raise q) ((b.raise (q.num : ℚ)).raise (1 / (q.den : ℚ))) := by
  have hq : Allowed v b q := h.allowed
  have hproduct : (q.num : ℚ) * (1 / (q.den : ℚ)) = q := by
    rw [mul_one_div, Rat.num_div_den]
  -- the numerator is a whole exponent and the root has the numerator one, so both are allowed
  have hroot : (0 : ℚ) ≤ 1 / (q.den : ℚ) := by positivity
  have hden : (1 / (q.den : ℚ)).den = q.den := by
    rw [one_div, Rat.inv_natCast_den_of_pos q.den_pos]
  have hnum : (1 / (q.den : ℚ)).num = 1 := by
    rw [one_div, Rat.inv_natCast_num_of_pos q.den_pos]
  have hone : ((q.num : ℚ)).den = 1 := Rat.den_intCast _
  have hodd : ¬Even ((q.num : ℚ)).den := by
    rw [hone]
    decide
  have hpower : Allowed v b (q.num : ℚ) :=
    ⟨⟨⟨hq.fits.1, rfl⟩, fun heven => absurd heven hodd, fun hne => absurd hone hne⟩,
      hq.notInverted.imp_left fun h => by exact_mod_cast Rat.num_nonneg.mpr h⟩
  have hall : Allowed v (b.raise (q.num : ℚ)) (1 / (q.den : ℚ)) := by
    refine ⟨⟨⟨?_, ?_⟩, fun heven => (hq.even (hden ▸ heven)).raise _,
      fun hne => (hq.root (hden ▸ hne)).raise _⟩, Or.inl hroot⟩
    · rw [hnum]
      rfl
    · rw [hden]
      exact hq.fits.2
  refine ⟨(h.base.raise hpower).raise hall, ?_, fun _ hm => (hm.base.raise _).raise _, ?_⟩
  · rw [realAt_raise, realAt_raise, realAt_raise, realPower_realPower hpower.notInverted
      (Or.inl hroot), hproduct]
    exact fun heven => (hq.even (hden ▸ heven.resolve_left hodd)).realAt
  · rw [rootDegree_raise, rootDegree_raise, rootDegree_raise, hden, hone, one_mul]

/-- A power of a product. -/
theorem product_raise (h : ((Term.product ts).raise q).HasValue v) :
    Kept v ((Term.product ts).raise q) (.product (ts.map (·.raise q))) := by
  have hq : Allowed v (.product ts) q := h.allowed
  have hmember : ∀ t ∈ ts, Allowed v t q := by
    intro t ht
    refine ⟨⟨hq.fits, fun heven => madeOf_product.mp (hq.even heven) t ht,
      fun hden => madeOf_product.mp (hq.root hden) t ht⟩,
      hq.notInverted.imp_right fun hne hzero => hne ?_⟩
    rw [realAt_product]
    exact List.prod_eq_zero (List.mem_map.mpr ⟨t, ht, hzero⟩)
  refine ⟨hasValue_product.mpr fun u hu => ?_, ?_,
    fun _ hm => madeOf_product.mpr fun u hu => ?_, ?_⟩
  · obtain ⟨t, ht, rfl⟩ := List.mem_map.mp hu
    exact (hasValue_product.mp h.base t ht).raise (hmember t ht)
  · rw [realAt_product, realAt_raise, realAt_product]
    -- the identity needs nothing of the members, so that it goes by induction over all lists
    clear h hq hmember
    induction ts with
    | nil => exact (one_realPower q).symm
    | cons t ts ih =>
      rw [List.map_cons, List.map_cons, List.prod_cons, ih, realAt_raise, List.map_cons,
        List.prod_cons, mul_realPower]
  · obtain ⟨t, ht, rfl⟩ := List.mem_map.mp hu
    exact (madeOf_product.mp hm.base t ht).raise q
  · rw [rootDegree_raise]
    refine rootDegree_product_dvd.mpr fun u hu => ?_
    obtain ⟨t, ht, rfl⟩ := List.mem_map.mp hu
    rw [rootDegree_raise]
    exact Nat.mul_dvd_mul_left _ (rootDegree_product_dvd.mp (dvd_refl _) t ht)

/-- A product of powers of one base, whose exponents are added. -/
theorem raise_sum {qs : List ℚ} (hne : qs ≠ []) (hfits : Fits qs.sum)
    (h : (Term.product (qs.map b.raise)).HasValue v) :
    Kept v (.product (qs.map b.raise)) (b.raise qs.sum) := by
  have hall : ∀ q ∈ qs, (b.raise q).HasValue v := fun q hq =>
    hasValue_product.mp h _ (List.mem_map_of_mem hq)
  have hinverted : ∀ q ∈ qs, NotInverted (b.realAt v) q := fun q hq =>
    (hall q hq).allowed.notInverted
  have heven : ∀ q ∈ qs, Even q.den → b.Nonneg v := fun q hq => (hall q hq).allowed.even
  obtain ⟨p, hp⟩ := List.exists_mem_of_ne_nil qs hne
  refine ⟨(hall p hp).base.raise ⟨⟨hfits, fun hsum => ?_, fun hsum => ?_⟩,
    notInverted_sum hinverted⟩, ?_, fun _ hm => ?_, ?_⟩
  · obtain ⟨q, hq, hden⟩ := dvd_den_sum Nat.prime_two hsum.two_dvd
    exact heven q hq (even_iff_two_dvd.mpr hden)
  · obtain ⟨k, hk, hdvd⟩ := Nat.exists_prime_and_dvd hsum
    obtain ⟨q, hq, hden⟩ := dvd_den_sum hk hdvd
    refine (hall q hq).allowed.root fun hone => ?_
    rw [hone] at hden
    exact hk.one_lt.ne' (Nat.dvd_one.mp hden)
  · rw [realAt_raise, realPower_sum hinverted fun q hq hden => (heven q hq hden).realAt,
      realAt_product, List.map_map]
    exact congrArg List.prod (List.map_congr_left fun q _ => (realAt_raise b q).symm)
  · have hraised : (b.raise p).MadeOf _ _ := madeOf_product.mp hm _ (List.mem_map_of_mem hp)
    exact hraised.base.raise _
  -- each degree is that of the base times a denominator
  · have hdvd : ∀ q ∈ qs, q.den * b.rootDegree ∣ (Term.product (qs.map b.raise)).rootDegree := by
      intro q hq
      rw [← rootDegree_raise]
      exact rootDegree_product_dvd.mp (dvd_refl _) _ (List.mem_map_of_mem hq)
    rw [rootDegree_raise]
    exact den_sum_mul_dvd hne hdvd

end Kept
end Term
end Mathpad
