import Mathpad.Proofs.Denominators
import Mathpad.Proofs.Polynomials

/-!
# The order and the grouping of sums and products do not matter

Two expressions with whole constants that differ in the order of operands, in the
grouping of sums inside sums and of products inside products, or in parentheses have the
same flattened and sorted term, so they are reduced to the same result or for the same
reason not at all. Flattening forgets the grouping, and since only equal terms tie,
sorting forgets the order.
-/
set_option autoImplicit false

namespace Mathpad

/-! ## Expressions that differ in order and grouping -/

namespace Expr

/-- The two expressions differ in the order of operands, in grouping and in parentheses
only. -/
inductive Rearranged : Expr → Expr → Prop
  | refl (e : Expr) : Rearranged e e
  | symm {e e' : Expr} : Rearranged e e' → Rearranged e' e
  | trans {e e' e'' : Expr} : Rearranged e e' → Rearranged e' e'' → Rearranged e e''
  | swapSum (a b : Expr) : Rearranged (binary .add a b) (binary .add b a)
  | swapProduct (a b : Expr) : Rearranged (binary .multiply a b) (binary .multiply b a)
  | regroupSum (a b c : Expr) :
      Rearranged (binary .add (binary .add a b) c) (binary .add a (binary .add b c))
  | regroupProduct (a b c : Expr) :
      Rearranged (binary .multiply (binary .multiply a b) c)
        (binary .multiply a (binary .multiply b c))
  | unwrap (e : Expr) : Rearranged (parentheses e) e
  | sqrt {e e' : Expr} : Rearranged e e' → Rearranged (sqrt e) (sqrt e')
  | parentheses {e e' : Expr} : Rearranged e e' → Rearranged (parentheses e) (parentheses e')
  | power {b b' e e' : Expr} : Rearranged b b' → Rearranged e e' →
      Rearranged (power b e) (power b' e')
  | binary (op : BinaryOp) {a a' b b' : Expr} : Rearranged a a' → Rearranged b b' →
      Rearranged (binary op a b) (binary op a' b')
  | argument (f : NamedFunction) (before after : List Expr) {e e' : Expr} : Rearranged e e' →
      Rearranged (call f (before ++ e :: after)) (call f (before ++ e' :: after))

mutual

/-- Every constant is a 64-bit integer. -/
def WholeConstants : Expr → Prop
  | number x => x.IsWhole
  | var _ => True
  | sqrt inner => inner.WholeConstants
  | parentheses inner => inner.WholeConstants
  | power base exponent => base.WholeConstants ∧ exponent.WholeConstants
  | binary _ left right => left.WholeConstants ∧ right.WholeConstants
  | call _ args => AllWholeConstants args

/-- Every constant in these expressions is a 64-bit integer. -/
def AllWholeConstants : List Expr → Prop
  | [] => True
  | e :: es => e.WholeConstants ∧ AllWholeConstants es

end

/-- Some expressions have whole constants if and only if each of them has. -/
theorem allWholeConstants_iff {es : List Expr} :
    AllWholeConstants es ↔ ∀ e ∈ es, e.WholeConstants := by
  induction es with
  | nil => simp [AllWholeConstants]
  | cons e es ih => simp [AllWholeConstants, ih]

/-- No constant comes or goes. -/
theorem Rearranged.wholeConstants_iff {e e' : Expr} (h : Rearranged e e') :
    e.WholeConstants ↔ e'.WholeConstants := by
  induction h with
  | refl e => exact Iff.rfl
  | symm _ ih => exact ih.symm
  | trans _ _ ih ih' => exact ih.trans ih'
  | swapSum a b => exact and_comm
  | swapProduct a b => exact and_comm
  | regroupSum a b c => exact and_assoc
  | regroupProduct a b c => exact and_assoc
  | unwrap e => exact Iff.rfl
  | sqrt _ ih => exact ih
  | parentheses _ ih => exact ih
  | power _ _ ihb ihe => exact and_congr ihb ihe
  | binary op _ _ iha ihb => exact and_congr iha ihb
  | argument f before after _ ih =>
    simp only [WholeConstants, allWholeConstants_iff, List.forall_mem_append,
      List.forall_mem_cons, ih]

end Expr

/-! ## Constants in terms -/

namespace Number

/-- A constant of a term that comes from whole constants: a whole one, or the exponent of a
square root. -/
def IsConstant (x : Number) : Prop := x.IsWhole ∨ x = .ratio 1 2

theorem toDecimal_half : (Number.ratio 1 2).toDecimal = .ok ⟨false, 5, -1⟩ := by
  with_unfolding_all rfl

/-- Every constant can be compared: as a decimal it does not overflow. -/
theorem IsConstant.toDecimal_meets {x : Number} (h : x.IsConstant) :
    Meets x.toDecimal (fun _ => True) fun _ => False := by
  rcases h with ⟨n, rfl, hn⟩ | rfl
  · rw [toDecimal_word hn]
    exact trivial
  · rw [toDecimal_half]
    exact trivial

/-- A whole number is not one half, also when both are seen as decimals. -/
theorem order_half_ne {n : Int} (hn : isWord n = true) :
    (Number.ratio n 1).order (.ratio 1 2) ≠ .ok .eq := by
  unfold order
  rw [toDecimal_word hn, toDecimal_half]
  intro h
  have hcmp : compare (n * 10) 5 = .eq := by
    have hunits : (Decimal.ofInt n).units (-1) = n * 10 := by
      rw [Decimal.units, Decimal.signedDigits_ofInt]
      rfl
    rw [← hunits]
    exact Except.ok.inj h
  have heq := compare_eq_iff_eq.mp hcmp
  omega

/-- Constants that compare equal are equal, as words and a half are exact as decimals. -/
theorem IsConstant.eq_of_order {x y : Number} (hx : x.IsConstant) (hy : y.IsConstant)
    (h : x.order y = .ok .eq) : x = y := by
  rcases hx with hx | rfl
  · rcases hy with hy | rfl
    · exact Term.eq_of_order_whole hx hy h
    · obtain ⟨n, rfl, hn⟩ := hx
      exact absurd h (order_half_ne hn)
  · rcases hy with ⟨n, rfl, hn⟩ | rfl
    · exact absurd (order_swaps _ _ _ h) (order_half_ne hn)
    · rfl

end Number

/-! ## Terms with the same sorted form -/

namespace Term

/-- Every constant is whole, or the exponent of a square root. -/
abbrev HasConstants (t : Term) : Prop := AllNumbers Number.IsConstant t

/-- Both terms are sorted into the same one. -/
def SortedAlike (t u : Term) : Prop := ∃ s, s.HasConstants ∧ t.sort = .ok s ∧ u.sort = .ok s

/-- The sorted members of both lists are the same ones, up to their order. -/
def MembersAlike (ts us : List Term) : Prop :=
  ∃ ss vs, ts.mapM sort = .ok ss ∧ us.mapM sort = .ok vs ∧ ss.Perm vs ∧ ∀ s ∈ ss, s.HasConstants

/-- The terms are sorted into the same one, also as parts of a sum or of a product. -/
structure SameForm (t u : Term) : Prop where
  sortedAlike : SortedAlike t u
  membersAlike : ∀ op : Operation, MembersAlike (op.lift t) (op.lift u)

/-! ### Members -/

/-- What is sorted into the same term has the same members, taken as one each. -/
theorem SortedAlike.membersAlike {t u : Term} (h : SortedAlike t u) : MembersAlike [t] [u] := by
  obtain ⟨s, hs, ht, hu⟩ := h
  refine ⟨[s], [s], ?_, ?_, List.Perm.refl _, by simpa using hs⟩
  · rw [List.mapM_cons, ht]
    rfl
  · rw [List.mapM_cons, hu]
    rfl

/-- The members of two lists are sorted list by list. -/
theorem mapM_append_ok {ts us ss vs : List Term} (ht : ts.mapM sort = .ok ss)
    (hu : us.mapM sort = .ok vs) : (ts ++ us).mapM sort = .ok (ss ++ vs) := by
  rw [List.mapM_append, ht, hu]
  rfl

theorem MembersAlike.append {ts us ts' us' : List Term} (h : MembersAlike ts us)
    (h' : MembersAlike ts' us') : MembersAlike (ts ++ ts') (us ++ us') := by
  obtain ⟨ss, vs, hts, hus, hperm, hss⟩ := h
  obtain ⟨ss', vs', hts', hus', hperm', hss'⟩ := h'
  refine ⟨ss ++ ss', vs ++ vs', mapM_append_ok hts hts', mapM_append_ok hus hus',
    hperm.append hperm', ?_⟩
  exact List.forall_mem_append.mpr ⟨hss, hss'⟩

/-- Lists with the same members are put next to each other in either order. -/
theorem MembersAlike.append_comm {ts us ts' us' : List Term} (h : MembersAlike ts us)
    (h' : MembersAlike ts' us') : MembersAlike (ts ++ ts') (us' ++ us) := by
  obtain ⟨ss, vs, hts, hus, hperm, hss⟩ := h
  obtain ⟨ss', vs', hts', hus', hperm', hss'⟩ := h'
  refine ⟨ss ++ ss', vs' ++ vs, mapM_append_ok hts hts', mapM_append_ok hus' hus, ?_, ?_⟩
  · exact (hperm.append hperm').trans List.perm_append_comm
  · exact List.forall_mem_append.mpr ⟨hss, hss'⟩

theorem MembersAlike.symm {ts us : List Term} (h : MembersAlike ts us) : MembersAlike us ts := by
  obtain ⟨ss, vs, hts, hus, hperm, hss⟩ := h
  exact ⟨vs, ss, hus, hts, hperm.symm, fun v hv => hss v (hperm.symm.subset hv)⟩

theorem MembersAlike.trans {ts us vs : List Term} (h : MembersAlike ts us)
    (h' : MembersAlike us vs) : MembersAlike ts vs := by
  obtain ⟨as, bs, hts, hus, hperm, has⟩ := h
  obtain ⟨bs', cs, hus', hvs, hperm', -⟩ := h'
  rw [hus] at hus'
  cases hus'
  exact ⟨as, cs, hts, hvs, hperm.trans hperm', has⟩

/-! ### Terms -/

/-- Terms with such constants can be compared. -/
theorem order_constants {t u : Term} (ht : t.HasConstants) (hu : u.HasConstants) :
    ∃ o, order t u = .ok o := by
  have h := order_meets (fun _ hx => hx.toDecimal_meets) ht hu
  cases ho : order t u with
  | ok o => exact ⟨o, rfl⟩
  | error f => exact (h.of_error ho).elim

/-- Sums and products with the same members up to their order. -/
theorem MembersAlike.apply (op : Operation) {ts us : List Term} (h : MembersAlike ts us) :
    SameForm (op.apply ts) (op.apply us) := by
  have hsorted : SortedAlike (op.apply ts) (op.apply us) := by
    obtain ⟨ss, vs, hts, hus, hperm, hss⟩ := h
    obtain ⟨zs, hzs, hzs'⟩ := sortBy_eq_of_perm order_swaps order_chains
      (fun _ _ => order_constants)
      (fun _ _ ha hb hab => Tied.eq_of_allNumbers (fun _ _ => Number.IsConstant.eq_of_order)
        hab ha hb) hperm hss
    refine ⟨op.apply zs, ?_, ?_, ?_⟩
    · exact (allNumbers_apply op).mpr fun z hz => hss z ((sortBy_perm hzs).subset hz)
    · rw [sort_apply, hts, ok_bind, hzs]
      rfl
    · rw [sort_apply, hus, ok_bind, hzs']
      rfl
  refine ⟨hsorted, fun op' => ?_⟩
  cases op <;> cases op'
  · exact h
  · exact hsorted.membersAlike
  · exact hsorted.membersAlike
  · exact h

/-- Terms that are neither sums nor products. -/
theorem SortedAlike.sameForm {t u : Term} (h : SortedAlike t u)
    (ht : ∀ op : Operation, op.lift t = [t]) (hu : ∀ op : Operation, op.lift u = [u]) :
    SameForm t u :=
  ⟨h, fun op => by rw [ht, hu]; exact h.membersAlike⟩

/-- A constant is sorted into itself, in an operation or not. -/
theorem sameForm_number {x : Number} (hx : x.IsConstant) : SameForm (number x) (number x) :=
  SortedAlike.sameForm ⟨number x, hx, rfl, rfl⟩ (fun op => by cases op <;> rfl)
    fun op => by cases op <;> rfl

/-- A variable is sorted into itself, in an operation or not. -/
theorem sameForm_var (name : String) : SameForm (var name) (var name) :=
  SortedAlike.sameForm ⟨var name, trivial, rfl, rfl⟩ (fun op => by cases op <;> rfl)
    fun op => by cases op <;> rfl

/-- Powers of terms that are sorted into the same one are sorted into the same one. -/
theorem SameForm.power {b b' e e' : Term} (hb : SameForm b b') (he : SameForm e e') :
    SameForm (power b e) (power b' e') := by
  obtain ⟨s, hs, hbs, hbs'⟩ := hb.sortedAlike
  obtain ⟨v, hv, hev, hev'⟩ := he.sortedAlike
  refine SortedAlike.sameForm ⟨.power s v, ⟨hs, hv⟩, ?_, ?_⟩ (fun op => by cases op <;> rfl)
    fun op => by cases op <;> rfl
  · rw [sort, hbs, hev]
    rfl
  · rw [sort, hbs', hev']
    rfl

/-- Calls whose arguments are sorted into the same ones are sorted into the same call. -/
theorem sameForm_call (f : NamedFunction) {ts us : List Term}
    (h : ∃ ss, ts.mapM sort = .ok ss ∧ us.mapM sort = .ok ss ∧ ∀ s ∈ ss, s.HasConstants) :
    SameForm (call f ts) (call f us) := by
  obtain ⟨ss, hts, hus, hss⟩ := h
  refine SortedAlike.sameForm ⟨call f ss, allNumbersIn_iff.mpr hss, ?_, ?_⟩
    (fun op => by cases op <;> rfl) fun op => by cases op <;> rfl
  · rw [sort, sortAll_eq_mapM, hts]
    rfl
  · rw [sort, sortAll_eq_mapM, hus]
    rfl

theorem SameForm.symm {t u : Term} (h : SameForm t u) : SameForm u t := by
  obtain ⟨s, hs, ht, hu⟩ := h.sortedAlike
  exact ⟨⟨s, hs, hu, ht⟩, fun op => (h.membersAlike op).symm⟩

theorem SameForm.trans {t u v : Term} (h : SameForm t u) (h' : SameForm u v) :
    SameForm t v := by
  obtain ⟨s, hs, ht, hu⟩ := h.sortedAlike
  obtain ⟨s', -, hu', hv⟩ := h'.sortedAlike
  rw [hu] at hu'
  cases hu'
  exact ⟨⟨s, hs, ht, hv⟩, fun op => (h.membersAlike op).trans (h'.membersAlike op)⟩

end Term

/-! ## Flattened expressions -/

namespace Expr

open Term

/-- The flattened term of an expression. -/
abbrev flatTerm (e : Expr) : Term := e.toTerm.flatten

/-- An operation on two terms takes in the members of both, as far as they are of its kind. -/
theorem flatten_pair (op : Operation) (t u : Term) :
    (op.apply [t, u]).flatten = op.apply (op.lift t.flatten ++ op.lift u.flatten) := by
  rw [flatten_apply]
  simp only [List.map_cons, List.map_nil, List.flatMap_cons, List.flatMap_nil, List.append_nil]

theorem isConstant_minusOne : Number.minusOne.IsConstant := Or.inl ⟨-1, rfl, rfl⟩

/-- Every operator keeps the operands' forms: differences and quotients are sums and products of a
term with minus one or the power minus one. -/
theorem sameForm_binary (op : BinaryOp) {a a' b b' : Expr} (ha : SameForm a.flatTerm a'.flatTerm)
    (hb : SameForm b.flatTerm b'.flatTerm) :
    SameForm (binary op a b).flatTerm (binary op a' b').flatTerm := by
  have hminus : SameForm (.number Number.minusOne) (.number Number.minusOne) :=
    sameForm_number isConstant_minusOne
  have hpair : ∀ op : Operation, ∀ t t' u u' : Term, SameForm t.flatten t'.flatten →
      SameForm u.flatten u'.flatten →
      SameForm (op.apply [t, u]).flatten (op.apply [t', u']).flatten := by
    intro op t t' u u' ht hu
    rw [flatten_pair, flatten_pair]
    exact ((ht.membersAlike op).append (hu.membersAlike op)).apply op
  cases op with
  | add => exact hpair .sum _ _ _ _ ha hb
  | subtract => exact hpair .sum _ _ _ _ ha (hpair .product _ _ _ _ hminus hb)
  | multiply => exact hpair .product _ _ _ _ ha hb
  | divide => exact hpair .product _ _ _ _ ha (hb.power hminus)

/-- The operands may be swapped. -/
theorem sameForm_swap (op : Operation) {t u : Term} (ht : SameForm t.flatten t.flatten)
    (hu : SameForm u.flatten u.flatten) :
    SameForm (op.apply [t, u]).flatten (op.apply [u, t]).flatten := by
  rw [flatten_pair, flatten_pair]
  exact ((ht.membersAlike op).append_comm (hu.membersAlike op)).apply op

/-- Flattening leaves nothing of the grouping. -/
theorem flatten_regroup (op : Operation) (t u v : Term) :
    (op.apply [op.apply [t, u], v]).flatten = (op.apply [t, op.apply [u, v]]).flatten := by
  have hlift : ∀ ts : List Term, op.lift (op.apply ts) = ts := fun ts => by cases op <;> rfl
  rw [flatten_pair, flatten_pair, flatten_pair, flatten_pair, hlift, hlift, List.append_assoc]

/-- Induction over an expression with the arguments of calls as immediate parts. -/
@[elab_as_elim]
theorem parts_induction {P : Expr → Prop} (number : ∀ x, P (.number x))
    (var : ∀ name, P (.var name)) (sqrt : ∀ e, P e → P (.sqrt e))
    (parentheses : ∀ e, P e → P (.parentheses e))
    (power : ∀ b e, P b → P e → P (.power b e))
    (binary : ∀ op a b, P a → P b → P (.binary op a b))
    (call : ∀ f es, (∀ e ∈ es, P e) → P (.call f es)) (e : Expr) : P e :=
  Expr.rec (motive_1 := P) (motive_2 := fun es => ∀ e ∈ es, P e) number var sqrt parentheses power
    binary call (by simp) (fun e es he hes u hu => by
      rcases List.mem_cons.mp hu with rfl | hu
      · exact he
      · exact hes u hu) e

/-- The arguments of a call are flattened one by one. -/
theorem flatTerm_call (f : NamedFunction) (es : List Expr) :
    (call f es).flatTerm = .call f (es.map flatTerm) := by
  rw [flatTerm, toTerm, flatten, flattenAll_eq_map, toTerms_eq_map, List.map_map]
  rfl

/-- Expressions that can be sorted one by one can be sorted together. -/
theorem exists_sorted {es : List Expr} (h : ∀ e ∈ es, SameForm e.flatTerm e.flatTerm) :
    ∃ ss, (es.map flatTerm).mapM sort = .ok ss ∧ ∀ s ∈ ss, s.HasConstants := by
  induction es with
  | nil => exact ⟨[], rfl, by simp⟩
  | cons e es ih =>
    obtain ⟨ss, hss, hall⟩ := ih fun e he => h e (by simp [he])
    obtain ⟨s, hs, he, -⟩ := (h e (by simp)).sortedAlike
    refine ⟨s :: ss, ?_, List.forall_mem_cons.mpr ⟨hs, hall⟩⟩
    rw [List.map_cons, List.mapM_cons, he, ok_bind, hss]
    rfl

/-- An expression with whole constants can be sorted. -/
theorem sameForm_self {e : Expr} (h : e.WholeConstants) : SameForm e.flatTerm e.flatTerm := by
  induction e using parts_induction with
  | number x => exact sameForm_number (Or.inl h)
  | var name => exact sameForm_var name
  | sqrt e ih => exact (ih h).power (sameForm_number (Or.inr rfl))
  | parentheses e ih => exact ih h
  | power b e ihb ihe => exact (ihb h.1).power (ihe h.2)
  | binary op a b iha ihb => exact sameForm_binary op (iha h.1) (ihb h.2)
  | call f es ih =>
    rw [flatTerm_call]
    obtain ⟨ss, hss, hall⟩ := exists_sorted fun e he => ih e he (allWholeConstants_iff.mp h e he)
    exact sameForm_call f ⟨ss, hss, hss, hall⟩

/-- Rearranged expressions have the same sorted form. -/
theorem sameForm_of_rearranged {e e' : Expr} (h : Rearranged e e') (he : e.WholeConstants) :
    SameForm e.flatTerm e'.flatTerm := by
  induction h with
  | refl e => exact sameForm_self he
  | symm h ih => exact (ih (h.wholeConstants_iff.mpr he)).symm
  | trans h _ ih ih' => exact (ih he).trans (ih' (h.wholeConstants_iff.mp he))
  | swapSum a b => exact sameForm_swap .sum (sameForm_self he.1) (sameForm_self he.2)
  | swapProduct a b => exact sameForm_swap .product (sameForm_self he.1) (sameForm_self he.2)
  | regroupSum a b c =>
    have hregroup : (binary .add (binary .add a b) c).flatTerm
        = (binary .add a (binary .add b c)).flatTerm := flatten_regroup .sum _ _ _
    rw [← hregroup]
    exact sameForm_self he
  | regroupProduct a b c =>
    have hregroup : (binary .multiply (binary .multiply a b) c).flatTerm
        = (binary .multiply a (binary .multiply b c)).flatTerm := flatten_regroup .product _ _ _
    rw [← hregroup]
    exact sameForm_self he
  | unwrap e => exact sameForm_self he
  | sqrt _ ih => exact (ih he).power (sameForm_number (Or.inr rfl))
  | parentheses _ ih => exact ih he
  | power _ _ ihb ihe => exact (ihb he.1).power (ihe he.2)
  | binary op _ _ iha ihb => exact sameForm_binary op (iha he.1) (ihb he.2)
  | @argument f before after e e' _ ih =>
    have hall := allWholeConstants_iff.mp he
    rw [List.forall_mem_append, List.forall_mem_cons] at hall
    obtain ⟨hbefore, hargument, hafter⟩ := hall
    obtain ⟨s, hs, hes, hes'⟩ := (ih hargument).sortedAlike
    obtain ⟨bs, hbs, hbsall⟩ := exists_sorted fun e he => sameForm_self (hbefore e he)
    obtain ⟨as, has, hasall⟩ := exists_sorted fun e he => sameForm_self (hafter e he)
    -- the arguments before and behind the changed one are sorted as before
    have hcons : ∀ t : Term, t.sort = .ok s →
        (before.map flatTerm ++ t :: after.map flatTerm).mapM sort = .ok (bs ++ s :: as) := by
      intro t ht
      refine mapM_append_ok hbs ?_
      rw [List.mapM_cons, ht, ok_bind, has]
      rfl
    rw [flatTerm_call, flatTerm_call, List.map_append, List.map_append, List.map_cons,
      List.map_cons]
    refine sameForm_call f ⟨bs ++ s :: as, hcons _ hes, hcons _ hes', ?_⟩
    exact List.forall_mem_append.mpr ⟨hbsall, List.forall_mem_cons.mpr ⟨hs, hasall⟩⟩

/-! ## The whole pipeline -/

/-- Rearranging an expression with whole constants does not change its flattened and sorted
term, which there always is, and so neither the result of reduction nor the reason why there
is none. -/
theorem simplify_eq_of_rearranged {e e' : Expr} (h : Rearranged e e') (he : e.WholeConstants) :
    ∃ s, e.toTerm.flatten.sort = .ok s ∧ e'.toTerm.flatten.sort = .ok s ∧
      e.toTerm.simplify = s.reduce ∧ e'.toTerm.simplify = s.reduce := by
  obtain ⟨s, -, hs, hs'⟩ := (sameForm_of_rearranged h he).sortedAlike
  refine ⟨s, hs, hs', ?_, ?_⟩
  · rw [simplify, hs, ok_bind]
  · rw [simplify, hs', ok_bind]

/-- `x * (2 + (y + x))` and `((x + 2) + y) * x`. -/
theorem simplify_eq_of_rearranged_sum :
    let e := binary .multiply (var "x")
      (parentheses (binary .add (number (.ratio 2 1)) (binary .add (var "y") (var "x"))))
    let e' := binary .multiply
      (parentheses (binary .add (binary .add (var "x") (number (.ratio 2 1))) (var "y"))) (var "x")
    Rearranged e e' ∧ e.WholeConstants ∧
      ∃ s, e.toTerm.flatten.sort = .ok s ∧ e'.toTerm.flatten.sort = .ok s ∧
        e.toTerm.simplify = s.reduce ∧ e'.toTerm.simplify = s.reduce := by
  intro e e'
  have hinner : Rearranged (binary .add (number (.ratio 2 1)) (binary .add (var "y") (var "x")))
      (binary .add (binary .add (var "x") (number (.ratio 2 1))) (var "y")) :=
    -- `2 + (y + x)`, `2 + (x + y)`, `(2 + x) + y`, `(x + 2) + y`
    ((Rearranged.binary .add (.refl _) (.swapSum _ _)).trans (.symm (.regroupSum _ _ _))).trans
      (.binary .add (.swapSum _ _) (.refl _))
  have h : Rearranged e e' := (Rearranged.swapProduct _ _).trans
    (.binary .multiply (.parentheses hinner) (.refl _))
  have he : e.WholeConstants := ⟨trivial, ⟨2, rfl, rfl⟩, trivial, trivial⟩
  exact ⟨h, he, simplify_eq_of_rearranged h he⟩

end Expr
end Mathpad
