import Mathpad.Proofs.Denominators
import Mathpad.Proofs.Evaluation
import Mathpad.Proofs.LinearOrder
import Mathpad.Proofs.Settled

/-!
# The order is a total preorder, and sorting obeys it

Two terms can be compared as soon as their numbers have decimal values, and a fraction of two
words has one, in lowest terms or not. On such terms comparing is total, and it is transitive
on all terms. Sorting then succeeds; it puts the members of each sum and each product into
order, loses and adds none, and finds nothing to do in its own results.
-/
set_option autoImplicit false

namespace Mathpad

/-! ## Comparable terms -/

/-- Both parts of a fraction are words, and its denominator is not zero. A decimal is any. -/
def Number.InWords : Number → Prop
  | .ratio n d => isWord n = true ∧ isWord d = true ∧ d ≠ 0
  | .decimal .. => True

/-- A fraction made of words can be compared, and so can a decimal. -/
theorem Number.InWords.toDecimal_meets {x : Number} (hx : x.InWords) :
    Meets x.toDecimal (fun _ => True) fun _ => False := by
  cases x with
  | ratio n d =>
    obtain ⟨v, hv⟩ := exists_toDecimal_ratio hx.1 hx.2.2
    rw [hv]
    exact trivial
  | decimal v a => exact trivial

namespace Term

variable {t u : Term}

/-- Comparing terms whose fractions are made of words never fails. -/
theorem order_never_fails (ht : AllNumbers Number.InWords t)
    (hu : AllNumbers Number.InWords u) : Meets (order t u) (fun _ => True) fun _ => False :=
  order_meets (fun _ hx => hx.toDecimal_meets) ht hu

/-- Any two terms compare, and the other way around they compare the other way. -/
theorem order_total (ht : AllNumbers Number.InWords t) (hu : AllNumbers Number.InWords u) :
    ∃ o, order t u = .ok o ∧ order u t = .ok o.swap := by
  obtain ⟨o, ho, -⟩ := (order_never_fails ht hu).exists_ok
  exact ⟨o, ho, order_swaps t u o ho⟩

/-! ## Sorting -/

/-- The second term is the first one with the members of all sums and all products put into
order. The arguments of calls stay where they are. -/
inductive PutInOrder : Term → Term → Prop
  | number (x : Number) : PutInOrder (number x) (number x)
  | var (name : String) : PutInOrder (var name) (var name)
  | operation (op : Operation) {ts us vs : List Term} (members : List.Forall₂ PutInOrder ts us)
      (perm : vs.Perm us) (sorted : vs.Pairwise (InOrder order)) :
      PutInOrder (op.apply ts) (op.apply vs)
  | power {b e b' e' : Term} (base : PutInOrder b b') (exponent : PutInOrder e e') :
      PutInOrder (power b e) (power b' e')
  | call (f : NamedFunction) {ts us : List Term} (args : List.Forall₂ PutInOrder ts us) :
      PutInOrder (call f ts) (call f us)

/-- Sorting puts everything in order, at every depth. -/
theorem sort_putInOrder (t : Term) : Meets t.sort (PutInOrder t) fun _ => True := by
  induction t using operation_induction with
  | number x => exact .number x
  | var name => exact .var name
  | operation op ts ih =>
    rw [sort_apply]
    refine (Meets.mapM ih).bind fun us hus => ?_
    refine (meets_true (sortBy order us)).eq_and.bind fun vs hvs => ?_
    exact .operation op hus (sortBy_perm hvs.1) (sortBy_pairwise order_swaps order_chains hvs.1)
  | power b e ihb ihe =>
    rw [sort]
    exact ihb.bind fun b' hb => ihe.bind fun e' he => .power hb he
  | call f ts ih =>
    rw [sort, sortAll_eq_mapM]
    exact (Meets.mapM ih).bind fun us hus => .call f hus

/-- Every term whose fractions are made of words can be sorted. -/
theorem sort_exists (ht : AllNumbers Number.InWords t) : ∃ s, t.sort = .ok s := by
  have hsort := (in_numbersOnly_iff.mpr ht).sort_meets fun u v hu hv =>
    order_never_fails (in_numbersOnly_iff.mp hu) (in_numbersOnly_iff.mp hv)
  obtain ⟨s, hs, -⟩ := hsort.exists_ok
  exact ⟨s, hs⟩

theorem mapM_sort_of_forall {ts : List Term} (h : ∀ t ∈ ts, t.sort = .ok t) :
    ts.mapM sort = .ok ts := by
  rw [mapM_eq_map h, List.map_id']

/-- Sorting does nothing where everything is sorted. -/
theorem Sorted.sort_eq (h : Sorted t) : t.sort = .ok t := by
  induction t using operation_induction with
  | number x => rfl
  | var name => rfl
  | operation op ts ih =>
    rw [sort_apply, mapM_sort_of_forall fun t ht => ih t ht (h.members op t ht), ok_bind,
      sortBy_of_isChain order_swaps (sortedHere_apply.mp h.here)]
    rfl
  | power b e ihb ihe =>
    rw [sort, ihb h.base, ihe h.exponent]
    rfl
  | call f ts ih =>
    rw [sort, sortAll_eq_mapM, mapM_sort_of_forall fun t ht => ih t ht (h.inside t ht)]
    rfl

/-! ## The order and sorting together -/

/-- Comparing is a total preorder on all terms whose fractions are made of words, decimals
among them or not, and sorting such a term succeeds, puts it into that order and leaves the
result alone. -/
theorem order_total_preorder {a b c : Term} (ha : AllNumbers Number.InWords a)
    (hb : AllNumbers Number.InWords b) :
    (∃ o, order a b = .ok o ∧ order b a = .ok o.swap) ∧
    (InOrder order a b → InOrder order b c → InOrder order a c) ∧
    ∃ s, a.sort = .ok s ∧ PutInOrder a s ∧ s.sort = .ok s := by
  refine ⟨order_total ha hb, InOrder.trans order_chains, ?_⟩
  obtain ⟨s, hs⟩ := sort_exists ha
  exact ⟨s, hs, (sort_putInOrder a).of_ok hs, ((sort_sorted a).of_ok hs).sort_eq⟩

/-- Fractions that are not in lowest terms, a decimal and a variable in one sum. -/
theorem order_total_preorder_mixed :
    let a : Term := sum [var "x", number (.decimal ⟨true, 25, -2⟩ .exact), number (.ratio 2 (-6))]
    let b : Term := sum [number (.ratio (-1) 4), var "x", number (.ratio 0 5)]
    let c : Term := power (var "x") (number (.ratio 1 2))
    AllNumbers Number.InWords a ∧ AllNumbers Number.InWords b ∧
    (∃ o, order a b = .ok o ∧ order b a = .ok o.swap) ∧
    (InOrder order a b → InOrder order b c → InOrder order a c) ∧
    a.sort = .ok (sum [number (.ratio 2 (-6)), number (.decimal ⟨true, 25, -2⟩ .exact), var "x"]) ∧
    PutInOrder a
      (sum [number (.ratio 2 (-6)), number (.decimal ⟨true, 25, -2⟩ .exact), var "x"]) := by
  intro a b c
  have ha : AllNumbers Number.InWords a :=
    ⟨trivial, trivial, ⟨by decide, by decide, by decide⟩, trivial⟩
  have hb : AllNumbers Number.InWords b :=
    ⟨⟨by decide, by decide, by decide⟩, trivial, ⟨by decide, by decide, by decide⟩, trivial⟩
  obtain ⟨htotal, htrans, s, hs, hput, -⟩ := order_total_preorder (c := c) ha hb
  have hsort : a.sort = .ok (sum [number (.ratio 2 (-6)),
    number (.decimal ⟨true, 25, -2⟩ .exact), var "x"]) := by with_unfolding_all rfl
  obtain rfl := Except.ok.inj (hs.symm.trans hsort)
  exact ⟨ha, hb, htotal, htrans, hsort, hput⟩

end Term
end Mathpad
