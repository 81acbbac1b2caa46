import Mathpad.Proofs.Everywhere
import Mathpad.Proofs.Operations
import Mathpad.Proofs.Termination
import Mathpad.Proofs.Totals

/-!
# Settled terms

A term is settled if no rule of reduction applies anywhere in it, apart from the one that
makes a product zero when one of its factors is. Reduction leaves a settled term as it is
just if none of its products has zero among its factors.
-/
set_option autoImplicit false

namespace Mathpad.Term

/-! ## Sorted terms -/

/-- The members of a sum or a product are in order. -/
def SortedHere : Term → Prop
  | product ts | sum ts => ts.IsChain (InOrder order)
  | _ => True

/-- All sums and products in the term are sorted. -/
def Sorted (t : Term) : Prop := Everywhere SortedHere t

theorem sortedHere_apply {op : Operation} {ts : List Term} :
    SortedHere (op.apply ts) ↔ ts.IsChain (InOrder order) := by
  cases op <;> exact Iff.rfl

theorem sorted_number (x : Number) : Sorted (number x) := Everywhere.number trivial

/-- Sorting a term sorts all of it. -/
theorem sort_sorted (t : Term) : Meets t.sort Sorted fun _ => True := by
  induction t using operation_induction with
  | number x => exact sorted_number x
  | var name => exact ⟨trivial, fun u hu => by simp [parts] at hu⟩
  | operation op ts ih =>
    rw [sort_apply]
    refine (Meets.mapM ih).bind fun us hus => ?_
    refine (meets_true (sortBy order us)).eq_and.bind fun sorted hsorted => ?_
    refine Everywhere.apply op ?_ fun u hu => ?_
    · exact sortedHere_apply.mpr (sortBy_isChain order_swaps hsorted.1)
    · obtain ⟨t, -, hu⟩ := exists_of_forall₂_right hus ((sortBy_perm hsorted.1).subset hu)
      exact hu
  | power b e ihb ihe =>
    rw [sort]
    refine ihb.bind fun b' hb => ?_
    refine ihe.bind fun e' he => ?_
    exact Everywhere.power trivial hb he
  | call f ts ih =>
    rw [sort, sortAll_eq_mapM]
    refine (Meets.mapM ih).bind fun us hus => ?_
    refine ⟨trivial, fun u hu => ?_⟩
    obtain ⟨t, -, hu⟩ := exists_of_forall₂_right hus hu
    exact hu

/-! ## Settled terms -/

/-- The rules for sums and products do nothing with these members. -/
structure OperationSettled (op : Operation) (ts : List Term) : Prop where
  sorted : ts.IsChain (InOrder order)
  two_le_length : 2 ≤ ts.length
  no_lift : ∀ t ∈ ts, op.members? t = none
  merged : mergeNumbers op (leadingNumbers ts).1 (leadingNumbers ts).2.isEmpty
    = .ok ((leadingNumbers ts).1, false)
  unlike : ∀ f, mergeLike f op (leadingNumbers ts).2 = .ok none

/-- No rule applies to the outermost node, whatever numbers it has. -/
def SettledHere : Term → Prop
  | product ts => OperationSettled .product ts
  | sum ts => OperationSettled .sum ts
  | power b e => reducePower reduce b e false = .ok ⟨power b e, false⟩
  | _ => True

/-- No rule applies anywhere in the term, whatever numbers there are. -/
def Settled (t : Term) : Prop := Everywhere SettledHere t

/-- A product does not have zero among its factors. -/
def NoZeroFactor : Term → Prop
  | product ts => ∀ x, number x ∈ ts → x.isZero = false
  | _ => True

theorem settledHere_apply {op : Operation} {ts : List Term} :
    SettledHere (op.apply ts) ↔ OperationSettled op ts := by
  cases op <;> exact Iff.rfl

theorem settled_number (x : Number) : Settled (number x) := Everywhere.number trivial

/-- A settled term is sorted. -/
theorem Settled.sorted {t : Term} (h : Settled t) : Sorted t := by
  refine h.imp fun u hu => ?_
  cases u with
  | product ts => exact OperationSettled.sorted hu
  | sum ts => exact OperationSettled.sorted hu
  | _ => exact trivial

/-! ## The steps of a sum or a product -/

variable {f : Term → Outcome Reduced} {op : Operation} {ts : List Term} {r : Reduced}

/-- How the reduction of a sum or a product ends whose members have been reduced to these
numbers and the rest behind them. -/
inductive OperationEnd (f : Term → Outcome Reduced) (op : Operation) (front : List Number)
    (rest : List Term) (changed : Bool) : Reduced → Prop where
  | absorbed (habsorbs : front.any op.absorbs = true) :
    OperationEnd f op front rest changed ⟨number Number.zero, true⟩
  | merged {numbers : List Number} {any : Bool} {combined : List Term} {r : Reduced}
    (hnumbers : mergeNumbers op front rest.isEmpty = .ok (numbers, any))
    (hlike : mergeLike f op rest = .ok (some combined))
    (hagain : f (op.apply (numbers.map number ++ combined)) = .ok r) :
    OperationEnd f op front rest changed ⟨r.term, true⟩
  | kept {numbers : List Number} {any : Bool} (habsorbs : front.any op.absorbs = false)
    (hnumbers : mergeNumbers op front rest.isEmpty = .ok (numbers, any))
    (hlike : mergeLike f op rest = .ok none) :
    OperationEnd f op front rest changed
      (ofMembers op (numbers.map number ++ rest) (changed || any))

/-- A reduction of a sum or a product that succeeds: what the members become, and how it
ends. -/
structure OperationReduced (f : Term → Outcome Reduced) (op : Operation) (ts : List Term)
    (front : List Number) (rest : List Term) (r : Reduced) (sorted : List Term)
    (rs : List Reduced) (changed : Bool) : Prop where
  members : MembersReduced (fun t r => f t = .ok r) op ts sorted rs
    (front.map number ++ rest) changed
  leading : leadingNumbers (front.map number ++ rest) = (front, rest)
  ends : OperationEnd f op front rest changed r

/-- Reducing an operation goes through all its stages if it succeeds. -/
theorem reduceOperation_cases (h : reduceOperation f op ts = .ok r) :
    ∃ front rest sorted rs changed, OperationReduced f op ts front rest r sorted rs changed := by
  have hmembers : Meets (reduceMembers f op ts) (fun out => ∃ sorted rs,
      MembersReduced (fun t r => f t = .ok r) op ts sorted rs out.1 out.2) fun _ => True :=
    reduceMembers_meets op (P := fun _ => True) (fun _ _ _ _ => meets_true _)
      (fun _ _ => trivial) fun t _ =>
        (meets_true (f t)).eq_and.imp fun r hr => ⟨hr.1, fun _ _ => trivial⟩
  -- nothing is promised of faults, so every step may succeed with what it gave
  have hall : Meets (reduceOperation f op ts) (fun r => ∃ front rest sorted rs changed,
      OperationReduced f op ts front rest r sorted rs changed) fun _ => True := by
    refine reduceOperation_meets (M := fun members changed => ∃ sorted rs,
        MembersReduced (fun t r => f t = .ok r) op ts sorted rs members changed) hmembers
      (fun front rest changed hred hlead habsorbs => ?_)
      fun front rest changed hred hlead habsorbs => ?_
    · obtain ⟨sorted, rs, hred⟩ := hred
      exact ⟨front, rest, sorted, rs, changed, hred, hlead, .absorbed habsorbs⟩
    · obtain ⟨sorted, rs, hred⟩ := hred
      refine (meets_true _).eq_and.imp fun merged hmerged => ?_
      refine (meets_true _).eq_and.imp fun like hlike => ⟨fun combined hc => ?_, fun hnone => ?_⟩
      · refine (meets_true _).eq_and.imp fun r hr => ?_
        rw [hc] at hlike
        exact ⟨front, rest, sorted, rs, changed, hred, hlead, .merged hmerged.1 hlike.1 hr.1⟩
      · rw [hnone] at hlike
        exact ⟨front, rest, sorted, rs, changed, hred, hlead, .kept habsorbs hmerged.1 hlike.1⟩
  exact hall.of_ok h

/-- Putting an operation together reports no change only if there was none before and its members
are an operation still. -/
theorem ofMembers_unperformed {us : List Term} {changed : Bool}
    (h : (ofMembers op us changed).performed = false) :
    changed = false ∧ (ofMembers op us changed).term = op.apply us := by
  cases us with
  | nil => cases h
  | cons u us =>
    cases us with
    | nil => cases h
    | cons v us => exact ⟨h, rfl⟩

/-- Where nothing is done to a sorted sum or product, nothing is done to its members, and
they are what is left. -/
theorem reduceOperation_unperformed (hts : ts.IsChain (InOrder order))
    (h : reduceOperation f op ts = .ok r) (hr : r.performed = false) :
    ∃ rs, List.Forall₂ (fun t r => f t = .ok r ∧ r.performed = false) ts rs ∧
      r.term = op.apply (rs.map (·.term)) ∧
      (leadingNumbers (rs.map (·.term))).1.any op.absorbs = false := by
  obtain ⟨front, rest, sorted, rs, changed, hred, hlead, hend⟩ := reduceOperation_cases h
  -- sorting does nothing to what is sorted, so the members come in their own places
  have hsorted : sorted = ts :=
    Except.ok.inj (hred.sorted_eq.symm.trans (sortBy_of_isChain order_swaps hts))
  cases hend with
  | absorbed => cases hr
  | merged => cases hr
  | @kept numbers any habsorbs hnumbers hlike =>
    obtain ⟨hstill, hterm⟩ := ofMembers_unperformed hr
    obtain ⟨hchanged, hany⟩ := Bool.or_eq_false_iff.mp hstill
    subst hany
    obtain ⟨hmembers, hunperformed⟩ := hred.still_map hchanged
    rw [hmembers] at hlead
    have hleft : numbers.map number ++ rest = rs.map (·.term) := by
      rw [mergeNumbers_still hnumbers, hmembers]
    refine ⟨rs, ?_, hterm.trans (by rw [hleft]), ?_⟩
    · have hreduced := hred.reduced
      rw [hsorted] at hreduced
      exact forall₂_and_right hreduced fun r hr => (hunperformed r hr).2
    · rw [hlead]
      exact habsorbs

/-- Terms to which nothing is done, and which are left in their place, stay as they are. -/
theorem still_of_forall₂ {rs : List Reduced}
    (h : List.Forall₂ (fun t r => f t = .ok r ∧ r.performed = false) ts rs)
    (hterms : rs.map (·.term) = ts) : ∀ t ∈ ts, f t = .ok ⟨t, false⟩ := by
  induction h with
  | nil => simp
  | @cons t r ts rs hr _ ih =>
    obtain ⟨hterm, hterms⟩ := List.cons.inj hterms
    intro u hu
    rcases List.mem_cons.mp hu with rfl | hu
    · rw [hr.1, ← hterm, ← hr.2]
    · exact ih hterms u hu

/-- Where nothing applies, nothing is done. -/
theorem reduceMembers_settled (hts : OperationSettled op ts) (hf : ∀ t ∈ ts, f t = .ok ⟨t, false⟩) :
    reduceMembers f op ts = .ok (ts, false) := by
  have hany : ((ts.map fun t => (⟨t, false⟩ : Reduced)).any fun r =>
      (op.members? r.term).isSome || r.performed) = false := by
    rw [List.any_eq_false]
    intro r hr
    obtain ⟨t, ht, rfl⟩ := List.mem_map.mp hr
    simp [hts.no_lift t ht]
  have hlift : ((ts.map fun t => (⟨t, false⟩ : Reduced)).flatMap fun r =>
      (op.members? r.term).getD [r.term]) = ts := by
    rw [List.flatMap_map]
    have hsingle : ∀ t ∈ ts, (op.members? t).getD [t] = [t] := by
      intro t ht
      rw [hts.no_lift t ht]
      rfl
    rw [List.flatMap_congr hsingle]
    exact List.flatMap_singleton' ts
  unfold reduceMembers
  rw [sortBy_of_isChain order_swaps hts.sorted, ok_bind, mapM_eq_map hf, ok_bind]
  simp only [hany, hlift]
  rfl

/-- Reducing an operation with settled members does nothing, if there is no zero to absorb them. -/
theorem reduceOperation_settled (hts : OperationSettled op ts)
    (habsorbs : (leadingNumbers ts).1.any op.absorbs = false)
    (hf : ∀ t ∈ ts, f t = .ok ⟨t, false⟩) :
    reduceOperation f op ts = .ok ⟨op.apply ts, false⟩ := by
  unfold reduceOperation
  rw [reduceMembers_settled hts hf, ok_bind]
  simp only [habsorbs, hts.merged, ok_bind, hts.unlike f, leadingNumbers_append]
  -- two members or more stay a sum or a product
  match ts, hts.two_le_length with
  | _ :: _ :: _, _ => rfl

/-- Reducing a power says that it did something, unless it left the power as it is. -/
theorem reducePower_unperformed (f : Term → Outcome Reduced) (b e : Term) (changed : Bool) :
    Meets (reducePower f b e changed)
      (fun r => r.performed = false → changed = false ∧ r.term = power b e) fun _ => True := by
  -- there are two ways to end: with the power as it was, or with something that was performed
  have hkept : (⟨power b e, changed⟩ : Reduced).performed = false →
      changed = false ∧ (⟨power b e, changed⟩ : Reduced).term = power b e := fun h => ⟨h, rfl⟩
  have hdone : ∀ t : Term, (⟨t, true⟩ : Reduced).performed = false →
      changed = false ∧ (⟨t, true⟩ : Reduced).term = power b e := fun t h => by cases h
  refine reducePower_meets (fun n d _ => (meets_true _).imp fun r _ => hdone _) fun _ => ?_
  refine (meets_true _).imp fun whole _ => ⟨fun _ => hdone _, fun _ => hdone _, fun _ _ => ?_⟩
  cases b with
  | number x =>
    refine (meets_true _).bind fun y _ => ?_
    cases y with
    | some y => exact hdone _
    | none => exact hkept
  | power b' e' =>
    refine (meets_true _).bind fun x _ => ?_
    by_cases hsplit : (splitExponent? x.term).isSome = true
    · rw [if_pos hsplit]
      exact hkept
    · rw [if_neg hsplit]
      exact (meets_true _).bind fun r _ => hdone _
  | product ts => exact (meets_true _).bind fun r _ => hdone _
  | var name => exact hkept
  | sum ts => exact hkept
  | call c ts => exact hkept

/-! ## Reducing settled terms -/

/-- The numbers at the front of a sorted product are all there are. -/
theorem noZeroFactor_apply (hts : ts.IsChain (InOrder order)) :
    NoZeroFactor (op.apply ts) ↔ (leadingNumbers ts).1.any op.absorbs = false := by
  cases op with
  | sum =>
    refine ⟨fun _ => ?_, fun _ => trivial⟩
    rw [List.any_eq_false]
    exact fun x _ => Bool.false_ne_true
  | product =>
    have happend := leadingNumbers_append ts
    constructor
    · intro h
      rw [List.any_eq_false]
      intro x hx
      -- a number at the front is a factor
      have hmem : number x ∈ ts := by
        rw [← happend]
        simp [hx]
      rw [Operation.absorbs, h x hmem]
      exact Bool.false_ne_true
    · intro h x hx
      rw [List.any_eq_false] at h
      -- a factor that is a number stands at the front, since the kinds come in order
      have hfront : x ∈ (leadingNumbers ts).1 := by
        rw [← happend] at hx
        rcases List.mem_append.mp hx with hx | hx
        · simpa using hx
        · have hnum := isNumber_of_mem_rest (ranksAscend_of_isChain hts) hx
          exact absurd hnum Bool.noConfusion
      exact Bool.eq_false_iff.mpr (h x hfront)

/-- A settled term without zero factors stays as it is. -/
theorem reduce_of_settled {t : Term} (h : Settled t) (hzero : Everywhere NoZeroFactor t) :
    t.reduce = .ok ⟨t, false⟩ := by
  induction t using operation_induction with
  | number x => rw [reduce_eq, reduceStep]; rfl
  | var name => rw [reduce_eq, reduceStep]; rfl
  | operation op ts ih =>
    have hts := settledHere_apply.mp h.here
    rw [reduce_eq, reduceStep_apply]
    exact reduceOperation_settled hts ((noZeroFactor_apply hts.sorted).mp hzero.here)
      fun t ht => ih t ht (h.members op t ht) (hzero.members op t ht)
  | power b e ihb ihe =>
    rw [reduce_eq, reduceStep, ihb h.base hzero.base, ok_bind,
      ihe h.exponent hzero.exponent, ok_bind]
    exact h.here
  | call c ts ih =>
    have hts : ∀ t ∈ ts, t.reduce = .ok ⟨t, false⟩ := fun t ht =>
      ih t ht (h.inside t ht) (hzero.inside t ht)
    have hterms : (ts.map fun t => (⟨t, false⟩ : Reduced)).map (·.term) = ts := by
      rw [List.map_map]
      exact List.map_id ts
    have hany : (ts.map fun t => (⟨t, false⟩ : Reduced)).any (·.performed) = false := by
      simp
    rw [reduce_eq, reduceStep, mapM_eq_map hts, ok_bind, hterms, hany]
    rfl

/-- A sorted term that stays as it is has no zero factors. -/
theorem noZeroFactor_of_reduce {t : Term} (hsorted : Sorted t)
    (h : t.reduce = .ok ⟨t, false⟩) : Everywhere NoZeroFactor t := by
  induction t using operation_induction with
  | number x => exact Everywhere.number trivial
  | var name => exact ⟨trivial, fun u hu => by simp [parts] at hu⟩
  | operation op ts ih =>
    rw [reduce_eq, reduceStep_apply] at h
    have hchain := sortedHere_apply.mp hsorted.here
    obtain ⟨rs, hrs, hterm, habsorbs⟩ := reduceOperation_unperformed hchain h rfl
    -- the term itself is what is left, so its members are the reduced members
    have hterms : ts = rs.map (·.term) := by
      cases op with
      | product => exact Term.product.inj hterm
      | sum => exact Term.sum.inj hterm
    rw [← hterms] at habsorbs
    refine Everywhere.apply op ((noZeroFactor_apply hchain).mpr habsorbs) fun t ht => ?_
    exact ih t ht (hsorted.members op t ht) (still_of_forall₂ hrs hterms.symm t ht)
  | power b e ihb ihe =>
    rw [reduce_eq, reduceStep] at h
    obtain ⟨rb, hrb, h⟩ := Outcome.bind_eq_ok.mp h
    obtain ⟨re, hre, h⟩ := Outcome.bind_eq_ok.mp h
    obtain ⟨hchanged, hterm⟩ := (reducePower_unperformed _ _ _ _).of_ok h rfl
    obtain ⟨hb, he⟩ := Term.power.inj hterm
    obtain ⟨hbstill, hestill⟩ := Bool.or_eq_false_iff.mp hchanged
    refine Everywhere.power trivial (ihb hsorted.base ?_) (ihe hsorted.exponent ?_)
    · rw [hrb, hb, ← hbstill]
    · rw [hre, he, ← hestill]
  | call c ts ih =>
    rw [reduce_eq, reduceStep] at h
    obtain ⟨rs, hrs, h⟩ := Outcome.bind_eq_ok.mp h
    obtain ⟨hterm, hstill⟩ := Reduced.mk.inj (Except.ok.inj h)
    have hterms := (Term.call.inj hterm).2
    have hunperformed : ∀ r ∈ rs, r.performed = false := by
      intro r hr
      exact Bool.eq_false_iff.mpr (List.any_eq_false.mp hstill r hr)
    have hall := still_of_forall₂ (forall₂_and_right (forall₂_of_mapM hrs) hunperformed) hterms
    exact ⟨trivial, fun t ht => ih t ht (hsorted.inside t ht) (hall t ht)⟩

end Mathpad.Term
