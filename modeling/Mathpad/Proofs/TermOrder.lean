import Mathpad.Proofs.Sorting

/-!
# The order of terms

What the other proofs need to know of the order: comparing the other way around gives
the opposite, kinds come in the order of their ranks, and two terms that compare equal
are of one kind with parts that compare equal. A comparison fails only where a number
has no decimal value.
-/
set_option autoImplicit false

namespace Mathpad

/-! ## Numbers -/

/-- Comparing two decimals the other way around gives the opposite. -/
theorem Decimal.order_swap (a b : Decimal) : (a.order b).swap = b.order a := by
  unfold Decimal.order
  rw [Int.min_comm b.exponent, Int.compare_swap]

/-- Comparing two numbers the other way around gives the opposite. -/
theorem Number.order_swaps : Swaps Number.order := by
  intro x y o h
  unfold Number.order at h ⊢
  obtain ⟨v, hv, h⟩ := Outcome.bind_eq_ok.mp h
  obtain ⟨w, hw, h⟩ := Outcome.bind_eq_ok.mp h
  obtain rfl : v.order w = o := by simpa [pure, Except.pure] using h
  rw [hv, hw, ok_bind, ok_bind, Decimal.order_swap]
  rfl

/-- A fault in arithmetic, which has a message. -/
def Fault.IsMaths (f : Fault) : Prop := ∃ e, f = .maths e

/-- The fault of a result that does not fit. -/
def Fault.IsOverflow (f : Fault) : Prop := f = .maths .overflow

theorem Fault.IsOverflow.isMaths {f : Fault} (h : f.IsOverflow) : f.IsMaths := ⟨_, h⟩

/-- What can only overflow has no faults but arithmetical ones. -/
theorem Meets.isMaths {α : Type} {o : Outcome α} {Q : α → Prop} (h : Meets o Q Fault.IsOverflow) :
    Meets o Q Fault.IsMaths :=
  h.mono (fun _ hx => hx) fun _ => Fault.IsOverflow.isMaths

/-- A decimal is fitted to the range of numbers, or it overflows. -/
theorem Decimal.fit_meets (d : Decimal) :
    Meets d.fit (fun r => d.fit? = .ok r) Fault.IsOverflow := by
  unfold Decimal.fit
  cases d.fit? with
  | ok r => exact rfl
  | error e => exact rfl

/-- A quotient of decimals is fitted to the range of numbers, or it overflows. -/
theorem Decimal.quotient_meets (a : Decimal) {b : Decimal} (hb : b.digits ≠ 0) :
    Meets (a.quotient b) (fun r => (a.div precision b).fit? = .ok r) Fault.IsOverflow := by
  unfold Decimal.quotient
  rw [if_neg hb]
  exact Decimal.fit_meets _

namespace Number

/-- An integer is a word, or it overflows. -/
theorem word_meets (n : Int) :
    Meets (word n) (fun m => m = n ∧ isWord n = true) Fault.IsOverflow := by
  unfold word
  by_cases hn : isWord n = true
  · rw [if_pos hn]
    exact ⟨rfl, hn⟩
  · rw [if_neg hn]
    exact rfl

/-- A fraction has a denominator other than zero. -/
def HasDenominator : Number → Prop
  | .ratio _ d => d ≠ 0
  | .decimal .. => True

/-- The only reason why a number with a denominator has no decimal value. -/
theorem toDecimal_meets {x : Number} (hx : x.HasDenominator) :
    Meets x.toDecimal (fun _ => True) Fault.IsOverflow := by
  cases x with
  | ratio n d =>
    refine (Decimal.quotient_meets _ ?_).imp fun _ _ => trivial
    simpa [Decimal.ofInt, HasDenominator] using hx
  | decimal v a => exact trivial

/-- Only a denominator that is zero or a quotient that overflows keeps a number from being a
decimal, and those are faults in arithmetic. -/
theorem toDecimal_isMaths (x : Number) : Meets x.toDecimal (fun _ => True) Fault.IsMaths := by
  by_cases hx : x.HasDenominator
  · exact (toDecimal_meets hx).mono (fun _ _ => trivial) fun _ => Fault.IsOverflow.isMaths
  · cases x with
    | ratio n d =>
      have hd : d = 0 := by simpa [HasDenominator] using hx
      simp only [toDecimal, Decimal.quotient, Decimal.ofInt, hd]
      exact ⟨_, rfl⟩
    | decimal v a => exact absurd trivial hx

/-- Numbers are compared as decimals, so comparing them fails as those fail. -/
theorem order_meets {x y : Number} {E : Fault → Prop}
    (hx : Meets x.toDecimal (fun _ => True) E) (hy : Meets y.toDecimal (fun _ => True) E) :
    Meets (x.order y) (fun _ => True) E :=
  hx.bind fun _ _ => hy.bind fun _ _ => trivial

end Number

namespace Term

/-! ## Induction over terms -/

/-- Induction over a term with the members of lists as immediate parts. -/
@[elab_as_elim]
theorem parts_induction {P : Term → Prop} (number : ∀ x, P (.number x))
    (var : ∀ name, P (.var name))
    (product : ∀ ts, (∀ t ∈ ts, P t) → P (.product ts))
    (power : ∀ b e, P b → P e → P (.power b e))
    (sum : ∀ ts, (∀ t ∈ ts, P t) → P (.sum ts))
    (call : ∀ f ts, (∀ t ∈ ts, P t) → P (.call f ts)) (t : Term) : P t :=
  Term.rec (motive_1 := P) (motive_2 := fun ts => ∀ t ∈ ts, P t) number var product power sum call
    (by simp) (fun t ts ht hts u hu => by
      rcases List.mem_cons.mp hu with rfl | hu
      · exact ht
      · exact hts u hu) t

/-! ## One comparison after another -/

/-- One comparison, and another one to break its ties. -/
def breakTies (first second : Outcome Ordering) : Outcome Ordering := do
  match ← first with
  | .eq => second
  | o => return o

theorem orderAll_cons (t u : Term) (ts us : List Term) :
    orderAll (t :: ts) (u :: us) = breakTies (order t u) (orderAll ts us) := by
  rw [orderAll]
  rfl

/-- Powers are compared by their bases, then by their exponents. -/
theorem order_power (b e b' e' : Term) :
    order (power b e) (power b' e') = breakTies (order b b') (order e e') := by
  rw [order]
  rfl

/-- Calls are compared by their functions, then by their arguments. -/
theorem order_call (f g : NamedFunction) (ts us : List Term) :
    order (call f ts) (call g us) = breakTies (.ok (compare f.code g.code)) (orderAll ts us) := by
  rw [order]
  cases compare f.code g.code <;> rfl

/-- The opposite of a comparison with its ties broken is the opposite of both parts. -/
theorem breakTies_swap {p p' q q' : Outcome Ordering} {o : Ordering}
    (hp : ∀ x, p = .ok x → p' = .ok x.swap) (hq : ∀ x, q = .ok x → q' = .ok x.swap)
    (h : breakTies p q = .ok o) : breakTies p' q' = .ok o.swap := by
  obtain ⟨x, hx, h⟩ := Outcome.bind_eq_ok.mp h
  rw [breakTies, hp x hx, ok_bind]
  cases x with
  | eq => exact hq o h
  | lt | gt => cases h; rfl

/-- Where a tie remains, neither comparison told a difference. -/
theorem eq_of_breakTies {p q : Outcome Ordering} (h : breakTies p q = .ok .eq) :
    p = .ok .eq ∧ q = .ok .eq := by
  obtain ⟨x, hx, h⟩ := Outcome.bind_eq_ok.mp h
  cases x with
  | eq => exact ⟨hx, h⟩
  | lt | gt => cases h

/-- Breaking ties fails as the two comparisons do. -/
theorem breakTies_meets {p q : Outcome Ordering} {E : Fault → Prop}
    (hp : Meets p (fun _ => True) E) (hq : Meets q (fun _ => True) E) :
    Meets (breakTies p q) (fun _ => True) E := by
  refine hp.bind fun x _ => ?_
  cases x with
  | eq => exact hq
  | lt | gt => exact trivial

/-! ## Kinds -/

/-- Terms of different kinds are ordered by kind. -/
theorem order_of_rank_ne {t u : Term} (h : t.rank ≠ u.rank) :
    order t u = .ok (compare t.rank u.rank) := by
  cases t <;> cases u <;> first | rfl | exact absurd rfl h

/-- A term that may stand before another one is of the same or an earlier kind. -/
theorem rank_le_of_inOrder {t u : Term} (h : InOrder order t u) : t.rank ≤ u.rank := by
  obtain ⟨o, ho, hgt⟩ := h
  by_contra hlt
  have hne : t.rank ≠ u.rank := by omega
  rw [order_of_rank_ne hne] at ho
  have hcmp : compare t.rank u.rank = .gt := Nat.compare_eq_gt.mpr (by omega)
  rw [hcmp] at ho
  cases ho
  exact hgt rfl

/-- It is enough to compare terms of one kind the other way around. -/
theorem swaps_of_kind {t : Term}
    (h : ∀ u o, t.rank = u.rank → order t u = .ok o → order u t = .ok o.swap) :
    ∀ u o, order t u = .ok o → order u t = .ok o.swap := by
  intro u o htu
  by_cases hrank : t.rank = u.rank
  · exact h u o hrank htu
  · rw [order_of_rank_ne hrank] at htu
    cases htu
    rw [order_of_rank_ne (Ne.symm hrank), Nat.compare_swap]

/-! ## Swapping -/

/-- Comparing lists the other way around gives the opposite, if that holds of their members. -/
theorem orderAll_swaps {ts : List Term}
    (h : ∀ t ∈ ts, ∀ u o, order t u = .ok o → order u t = .ok o.swap) :
    ∀ us o, orderAll ts us = .ok o → orderAll us ts = .ok o.swap := by
  induction ts with
  | nil =>
    intro us o hus
    cases us <;> (cases hus; rfl)
  | cons t ts ih =>
    intro us o hus
    cases us with
    | nil =>
      cases hus
      rfl
    | cons u us =>
      rw [orderAll_cons] at hus ⊢
      exact breakTies_swap (h t (by simp) u) (ih (fun t ht => h t (by simp [ht])) us) hus

/-- Comparing two terms the other way around gives the opposite. -/
theorem order_swaps : Swaps order := by
  intro t
  -- kinds are compared as numbers, so only terms of one kind are left
  induction t using parts_induction with
  | number x =>
    refine swaps_of_kind fun u o hrank h => ?_
    cases u <;> simp only [rank] at hrank <;> try omega
    exact Number.order_swaps _ _ o h
  | var name =>
    refine swaps_of_kind fun u o hrank h => ?_
    cases u <;> simp only [rank] at hrank <;> try omega
    rw [order] at h ⊢
    cases h
    exact congrArg Except.ok Std.OrientedCmp.eq_swap
  | product ts ih | sum ts ih =>
    refine swaps_of_kind fun u o hrank h => ?_
    cases u <;> simp only [rank] at hrank <;> try omega
    rw [order] at h ⊢
    exact orderAll_swaps ih _ o h
  | power b e ihb ihe =>
    refine swaps_of_kind fun u o hrank h => ?_
    cases u <;> simp only [rank] at hrank <;> try omega
    rw [order_power] at h ⊢
    exact breakTies_swap (ihb _) (ihe _) h
  | call f ts ih =>
    refine swaps_of_kind fun u o hrank h => ?_
    cases u <;> simp only [rank] at hrank <;> try omega
    rw [order_call] at h ⊢
    refine breakTies_swap (fun x hx => ?_) (orderAll_swaps ih _) h
    cases hx
    rw [Nat.compare_swap]

/-! ## Ties -/

/-- Two terms that compare equal. -/
def Tied (t u : Term) : Prop := order t u = .ok .eq

/-- What compares equal: parts in the same places that compare equal. -/
inductive TieCases : Term → Term → Prop
  | number {x y : Number} (h : x.order y = .ok .eq) : TieCases (.number x) (.number y)
  | var (name : String) : TieCases (.var name) (.var name)
  | product {ts us : List Term} (h : List.Forall₂ Tied ts us) :
      TieCases (.product ts) (.product us)
  | power {b e b' e' : Term} (hb : Tied b b') (he : Tied e e') :
      TieCases (.power b e) (.power b' e')
  | sum {ts us : List Term} (h : List.Forall₂ Tied ts us) : TieCases (.sum ts) (.sum us)
  | call (f : NamedFunction) {ts us : List Term} (h : List.Forall₂ Tied ts us) :
      TieCases (.call f ts) (.call f us)

/-- Lists that compare equal have members that compare equal, place by place. -/
theorem tied_all {ts us : List Term} (h : orderAll ts us = .ok .eq) :
    List.Forall₂ Tied ts us := by
  induction ts generalizing us with
  | nil =>
    cases us with
    | nil => exact List.Forall₂.nil
    | cons u us => cases h
  | cons t ts ih =>
    cases us with
    | nil => cases h
    | cons u us =>
      rw [orderAll_cons] at h
      obtain ⟨htu, htus⟩ := eq_of_breakTies h
      exact List.Forall₂.cons htu (ih htus)

theorem Tied.rank_eq {t u : Term} (h : Tied t u) : t.rank = u.rank := by
  by_contra hne
  rw [Tied, order_of_rank_ne hne] at h
  have hcmp : compare t.rank u.rank = .eq := by simpa using h
  exact hne (Nat.compare_eq_eq.mp hcmp)

/-- What compares equal has parts in the same places that compare equal. -/
theorem Tied.tieCases {t u : Term} (h : Tied t u) : TieCases t u := by
  have hrank := h.rank_eq
  cases t <;> cases u <;> try (simp [rank] at hrank)
  case number.number x y => exact .number (by rwa [Tied, order] at h)
  case var.var a b =>
    have hab : compare a b = .eq := by simpa [Tied, order] using h
    rw [Std.LawfulEqCmp.eq_of_compare hab]
    exact .var b
  case product.product ts us => exact .product (tied_all (by rwa [Tied, order] at h))
  case sum.sum ts us => exact .sum (tied_all (by rwa [Tied, order] at h))
  case power.power b e b' e' =>
    rw [Tied, order_power] at h
    obtain ⟨hb, he⟩ := eq_of_breakTies h
    exact .power hb he
  case call.call f ts g us =>
    rw [Tied, order_call] at h
    obtain ⟨hfg, hts⟩ := eq_of_breakTies h
    obtain rfl : f = g := by
      have hcode := Nat.compare_eq_eq.mp (Except.ok.inj hfg)
      cases f <;> cases g <;> first | rfl | simp [NamedFunction.code] at hcode
    exact .call f (tied_all hts)

/-! ## Failing comparisons -/

mutual

/-- Every number in a term satisfies `P`. -/
def AllNumbers (P : Number → Prop) : Term → Prop
  | number x => P x
  | var _ => True
  | product ts => AllNumbersIn P ts
  | power b e => AllNumbers P b ∧ AllNumbers P e
  | sum ts => AllNumbersIn P ts
  | call _ ts => AllNumbersIn P ts

/-- Every number in some terms satisfies `P`. -/
def AllNumbersIn (P : Number → Prop) : List Term → Prop
  | [] => True
  | t :: ts => AllNumbers P t ∧ AllNumbersIn P ts

end

/-- All numbers in some terms have a property if and only if those in each of them have it. -/
theorem allNumbersIn_iff {P : Number → Prop} {ts : List Term} :
    AllNumbersIn P ts ↔ ∀ t ∈ ts, AllNumbers P t := by
  induction ts with
  | nil => simp [AllNumbersIn]
  | cons t ts ih => simp [AllNumbersIn, ih]

/-- What holds of every number holds of all numbers in a term. -/
theorem allNumbers_of_forall {P : Number → Prop} (h : ∀ x, P x) (t : Term) : AllNumbers P t := by
  induction t using parts_induction with
  | number x => exact h x
  | var name => exact trivial
  | product ts ih => exact allNumbersIn_iff.mpr ih
  | power b e ihb ihe => exact ⟨ihb, ihe⟩
  | sum ts ih => exact allNumbersIn_iff.mpr ih
  | call f ts ih => exact allNumbersIn_iff.mpr ih

/-- A property of all numbers in a term may be replaced by a weaker one. -/
theorem AllNumbers.imp {P Q : Number → Prop} (h : ∀ x, P x → Q x) {t : Term}
    (ht : AllNumbers P t) : AllNumbers Q t := by
  induction t using parts_induction with
  | number x => exact h x ht
  | var name => exact trivial
  | product ts ih => exact allNumbersIn_iff.mpr fun t hm => ih t hm (allNumbersIn_iff.mp ht t hm)
  | power b e ihb ihe => exact ⟨ihb ht.1, ihe ht.2⟩
  | sum ts ih => exact allNumbersIn_iff.mpr fun t hm => ih t hm (allNumbersIn_iff.mp ht t hm)
  | call f ts ih => exact allNumbersIn_iff.mpr fun t hm => ih t hm (allNumbersIn_iff.mp ht t hm)

section Faults

variable {P : Number → Prop} {E : Fault → Prop}

/-- Comparing lists fails as comparing their members does. -/
theorem orderAll_meets {ts us : List Term}
    (h : ∀ t ∈ ts, ∀ u ∈ us, Meets (order t u) (fun _ => True) E) :
    Meets (orderAll ts us) (fun _ => True) E := by
  induction ts generalizing us with
  | nil => cases us <;> exact trivial
  | cons t ts ih =>
    cases us with
    | nil => exact trivial
    | cons u us =>
      rw [orderAll_cons]
      exact breakTies_meets (h t (by simp) u (by simp))
        (ih fun t ht u hu => h t (by simp [ht]) u (by simp [hu]))

/-- Comparing two terms fails only where one of their numbers has no decimal value. -/
theorem order_meets (hP : ∀ x, P x → Meets x.toDecimal (fun _ => True) E) {t u : Term}
    (ht : AllNumbers P t) (hu : AllNumbers P u) : Meets (order t u) (fun _ => True) E := by
  have hlists : ∀ ts us : List Term,
      (∀ t ∈ ts, ∀ u, AllNumbers P t → AllNumbers P u → Meets (order t u) (fun _ => True) E) →
      AllNumbersIn P ts → AllNumbersIn P us → Meets (orderAll ts us) (fun _ => True) E :=
    fun ts us ih hts hus => orderAll_meets fun t hm u hm' =>
      ih t hm u (allNumbersIn_iff.mp hts t hm) (allNumbersIn_iff.mp hus u hm')
  -- only numbers are converted to be compared; kinds, names and codes compare without a fault
  induction t using parts_induction generalizing u with
  | number x =>
    cases u with
    | number y => exact Number.order_meets (hP x ht) (hP y hu)
    | _ => exact trivial
  | var name => cases u <;> exact trivial
  | product ts ih =>
    cases u with
    | product us =>
      rw [order]
      exact hlists ts us (fun t hm u h h' => ih t hm h h') ht hu
    | _ => exact trivial
  | power b e ihb ihe =>
    cases u with
    | power b' e' =>
      rw [order_power]
      exact breakTies_meets (ihb ht.1 hu.1) (ihe ht.2 hu.2)
    | _ => exact trivial
  | sum ts ih =>
    cases u with
    | sum us =>
      rw [order]
      exact hlists ts us (fun t hm u h h' => ih t hm h h') ht hu
    | _ => exact trivial
  | call f ts ih =>
    cases u with
    | call g us =>
      rw [order_call]
      exact breakTies_meets trivial (hlists ts us (fun t hm u h h' => ih t hm h h') ht hu)
    | _ => exact trivial

end Faults

/-- A comparison that fails reports a fault in arithmetic. -/
theorem order_isMaths (t u : Term) : Meets (order t u) (fun _ => True) Fault.IsMaths :=
  order_meets (P := fun _ => True) (fun x _ => x.toDecimal_isMaths)
    (allNumbers_of_forall (fun _ => trivial) t) (allNumbers_of_forall (fun _ => trivial) u)

/-- Terms without zero denominators can be compared, short of an overflow. -/
theorem order_overflow {t u : Term} (ht : AllNumbers Number.HasDenominator t)
    (hu : AllNumbers Number.HasDenominator u) :
    Meets (order t u) (fun _ => True) Fault.IsOverflow :=
  order_meets (fun _ hx => Number.toDecimal_meets hx) ht hu

end Term
end Mathpad
