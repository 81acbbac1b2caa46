import Mathpad.Proofs.Settled

/-!
# Reducing twice

What reduction makes of a sorted term is settled, so reducing it once more does nothing,
unless one of its products has become zero without being noticed: whether a factor is zero
is checked before the numbers are multiplied, and the product of two small decimals may be
too small for a decimal.
-/
set_option autoImplicit false

namespace Mathpad.Term

/-! ## What reduction promises -/

/-- A settled term, and the same one if nothing was done to a sorted term. -/
structure Normal (t : Term) (r : Reduced) : Prop where
  settled : Settled r.term
  still : r.performed = false → Sorted t → r.term = t

/-- The parts of the term are sorted, though perhaps not the term itself. -/
def PartsSorted (t : Term) : Prop := ∀ u ∈ t.parts, Sorted u

/-- The reductions that are asked for settle terms. -/
def Settles (f : Term → Outcome Reduced) : Prop :=
  ∀ u, PartsSorted u → Meets (f u) (fun r => u.reduce = .ok r ∧ Normal u r) fun _ => True

theorem Sorted.partsSorted {t : Term} (h : Sorted t) : PartsSorted t := h.inside

theorem partsSorted_apply (op : Operation) {ts : List Term} (h : ∀ t ∈ ts, Sorted t) :
    PartsSorted (op.apply ts) := by
  unfold PartsSorted
  rw [parts_apply]
  exact h

/-- A power of a sorted base and a sorted exponent has sorted parts. -/
theorem partsSorted_power {b e : Term} (hb : Sorted b) (he : Sorted e) :
    PartsSorted (power b e) := by
  intro u hu
  rcases List.mem_cons.mp hu with rfl | hu
  · exact hb
  · obtain rfl := List.mem_singleton.mp hu
    exact he

/-! ## Members -/

section Members

variable {f : Term → Outcome Reduced} {op : Operation} {ts sorted members : List Term}
  {rs : List Reduced} {changed : Bool}

theorem members?_eq_some {t : Term} {us : List Term} (h : op.members? t = some us) :
    t = op.apply us := by
  cases op <;> cases t <;> simp_all [Operation.members?, Operation.apply]

/-- A member of a sum or a product after reduction. -/
structure SettledMember (op : Operation) (u : Term) : Prop where
  settled : Settled u
  no_lift : op.members? u = none

/-- What a settled term is spliced in as is settled, and is not spliced in further. -/
theorem settledMember_of_lift {t u : Term} (ht : Settled t) (hu : u ∈ op.lift t) :
    SettledMember op u := by
  cases hmembers : op.members? t with
  | none =>
    have heq : u = t := by simpa [Operation.lift, hmembers] using hu
    rw [heq]
    exact ⟨ht, hmembers⟩
  | some us =>
    have hmem : u ∈ us := by simpa [Operation.lift, hmembers] using hu
    rw [members?_eq_some hmembers] at ht
    exact ⟨ht.members op u hmem, (settledHere_apply.mp ht.here).no_lift u hmem⟩

/-- Sorted terms to which nothing is done stay as they are. -/
theorem terms_eq_of_unperformed (hf : Settles f) (hts : ∀ t ∈ ts, Sorted t)
    (h : List.Forall₂ (fun t r => f t = .ok r ∧ r.performed = false) ts rs) :
    rs.map (·.term) = ts := by
  induction h with
  | nil => rfl
  | @cons t r ts rs hr _ ih =>
    have hsorted := hts t (by simp)
    have hnormal := ((hf t hsorted.partsSorted).of_ok hr.1).2
    rw [List.map_cons, ih fun u hu => hts u (by simp [hu]), hnormal.still hr.2 hsorted]

/-- After reduction the members of an operation are settled and in order. -/
theorem MembersReduced.settled (hf : Settles f) (hts : ∀ t ∈ ts, Sorted t)
    (h : MembersReduced (fun t r => f t = .ok r) op ts sorted rs members changed) :
    (∀ u ∈ members, SettledMember op u) ∧ members.IsChain (InOrder order) := by
  have hsorted : ∀ t ∈ sorted, Sorted t := fun t ht => hts t (h.sorted_perm.subset ht)
  constructor
  · intro u hu
    obtain ⟨r, hr, hu⟩ := List.mem_flatMap.mp (h.members_perm.subset hu)
    obtain ⟨t, ht, hfr⟩ := exists_of_forall₂_right h.reduced hr
    have hnormal := ((hf t (hsorted t ht).partsSorted).of_ok hfr).2
    exact settledMember_of_lift hnormal.settled hu
  · cases changed with
    | true => exact sortBy_isChain order_swaps (h.again rfl)
    | false =>
      -- unchanged members are not sorted again, but they are the ones that were sorted
      obtain ⟨hterms, hstill⟩ := h.still_map rfl
      have hreduced := forall₂_and_right h.reduced fun r hr => (hstill r hr).2
      rw [hterms, terms_eq_of_unperformed hf hsorted hreduced]
      exact sortBy_isChain order_swaps h.sorted_eq

end Members

/-! ## Like members -/

section Like

variable {f : Term → Outcome Reduced}

/-- Whether any members are alike does not depend on how like ones would be merged. -/
theorem mergeRuns_none {ι : Type} {key whole : ι → Term}
    {merge merge' : ι → List ι → Outcome (Option Term)} {items : List ι}
    (h : mergeRuns key whole merge items = .ok none) :
    mergeRuns key whole merge' items = .ok none := by
  unfold mergeRuns at h
  obtain ⟨sorted, hsorted, h⟩ := Outcome.bind_eq_ok.mp h
  obtain ⟨runs, hruns, h⟩ := Outcome.bind_eq_ok.mp h
  obtain ⟨merged, hmerged, h⟩ := Outcome.bind_eq_ok.mp h
  -- nothing was merged, so every group has one member and `merge` was never called
  have hshort : ¬runs.any (1 < ·.length) = true := by
    intro hlong
    rw [if_pos hlong] at h
    cases h
  refine Outcome.bind_eq_ok.mpr ⟨sorted, hsorted, Outcome.bind_eq_ok.mpr ⟨runs, hruns,
    Outcome.bind_eq_ok.mpr ⟨merged, ?_, by rw [if_neg hshort]; rfl⟩⟩⟩
  refine Eq.trans (mapM_congr fun run hrun => ?_) hmerged
  have hlength : ¬1 < run.length := fun hlt =>
    hshort (List.any_eq_true.mpr ⟨run, hrun, by simpa using hlt⟩)
  cases run with
  | nil => rfl
  | cons first more =>
    cases more with
    | nil => rfl
    | cons second more => exact absurd (by simp) hlength

/-- Whether there is anything to merge does not depend on how the merged terms are reduced. -/
theorem mergeLike_none {g : Term → Outcome Reduced} {op : Operation} {ts : List Term}
    (h : mergeLike f op ts = .ok none) : mergeLike g op ts = .ok none := by
  cases op with
  | product => exact mergeRuns_none h
  | sum => exact h

/-! ### Factors -/

/-- The base and the exponent of a factor are sorted. -/
structure SortedFactor (a : Factor) : Prop where
  base : Sorted a.base
  exponent : Sorted a.exponent
  whole : Sorted a.whole

/-- A sorted term is a sorted factor: the exponent one that may be added is a number. -/
theorem Sorted.factor {t : Term} (h : Sorted t) : SortedFactor (Factor.ofTerm t) := by
  have hone : Sorted (number Number.one) := sorted_number _
  cases t with
  | power b e => exact ⟨h.base, h.exponent, h⟩
  | _ => exact ⟨h, hone, h⟩

/-- Merged factors are sorted, as the power that they become is reduced. -/
theorem mergeFactors_sorted (hf : Settles f) {first : Factor} {run : List Factor}
    (hfirst : SortedFactor first) (hrun : ∀ a ∈ run, SortedFactor a) :
    Meets (mergeFactors f first run) (fun out => ∀ t ∈ out, Sorted t) fun _ => True := by
  have hexponents : ∀ e ∈ run.map (·.exponent), Sorted e := by
    intro e he
    obtain ⟨a, ha, rfl⟩ := List.mem_map.mp he
    exact (hrun a ha).exponent
  unfold mergeFactors
  refine (hf _ (partsSorted_apply .sum hexponents)).bind fun x hx => ?_
  refine (hf _ (partsSorted_power hfirst.base hx.2.settled.sorted)).bind fun p hp => ?_
  intro t ht
  rw [← Option.some.inj ht]
  exact hp.2.settled.sorted

/-! ### Multiples -/

/-- A number may stand before anything that is no number. -/
theorem inOrder_number {x : Number} {t : Term} (ht : t.isNumber = false) :
    InOrder order (number x) t := by
  have hrank : 1 < t.rank := by
    by_contra hle
    rw [isNumber_iff_rank.mpr (by omega)] at ht
    cases ht
  refine ⟨compare 1 t.rank, order_of_rank_ne (ne_of_lt hrank), ?_⟩
  rw [Nat.compare_eq_lt.mpr hrank]
  exact Ordering.noConfusion

/-- A number may be put in front of terms in order that are no numbers. -/
theorem isChain_number_cons {x : Number} {ts : List Term} (hts : ∀ t ∈ ts, t.isNumber = false)
    (hchain : ts.IsChain (InOrder order)) : (number x :: ts).IsChain (InOrder order) := by
  rw [List.isChain_cons]
  refine ⟨fun t ht => inOrder_number (hts t ?_), hchain⟩
  exact List.mem_of_mem_head? ht

/-- A term whose factors are sorted and none of them a number. -/
structure PlainFactors (t : Term) : Prop where
  whole : Sorted t
  sorted : ∀ u ∈ t.factors, Sorted u
  not_number : ∀ u ∈ t.factors, u.isNumber = false
  chain : t.factors.IsChain (InOrder order)

/-- A multiple of a term with plain factors is sorted: its coefficient stands in front. -/
theorem PlainFactors.multiple? {t : Term} (h : PlainFactors t) (k : Number) :
    ∀ u ∈ multiple? k t, Sorted u := by
  unfold Term.multiple?
  intro u hu
  by_cases hzero : k.isZero = true
  · rw [if_pos hzero] at hu
    cases hu
  rw [if_neg hzero] at hu
  by_cases hone : k.isOne = true
  · rw [if_pos hone] at hu
    rw [← Option.some.inj hu]
    exact h.whole
  rw [if_neg hone] at hu
  rw [← Option.some.inj hu]
  have hchain := isChain_number_cons (x := k) h.not_number h.chain
  refine Everywhere.apply .product (sortedHere_apply.mpr hchain) fun v hv => ?_
  rcases List.mem_cons.mp hv with rfl | hv
  · exact sorted_number k
  · exact h.sorted v hv

/-- Behind the first number of a settled sum or product there is no other. -/
theorem OperationSettled.tail {op : Operation} {k : Number} {ts : List Term}
    (h : OperationSettled op (number k :: ts)) : ∀ t ∈ ts, t.isNumber = false := by
  -- merging leaves one number at most, and here it left all of them
  have hone := ((mergeNumbers_meets op _ _).of_ok h.merged).length_le_one
  have hfront : (leadingNumbers (number k :: ts)).1 = k :: (leadingNumbers ts).1 := by
    unfold leadingNumbers
    rw [List.takeWhile_cons_of_pos (isNumber_number k)]
    rfl
  rw [hfront, List.length_cons] at hone
  have hnil : (leadingNumbers ts).1 = [] := List.length_eq_zero_iff.mp (by omega)
  have happend := leadingNumbers_append ts
  rw [hnil, List.map_nil, List.nil_append] at happend
  have hranks := ranksAscend_of_isChain (List.isChain_cons.mp h.sorted).2
  intro t ht
  rw [← happend] at ht
  exact isNumber_of_mem_rest hranks ht

/-- If the first member is not a number, none is. -/
theorem isNumber_of_head {t : Term} {ts : List Term} (ht : t.isNumber = false)
    (hchain : (t :: ts).IsChain (InOrder order)) : ∀ u ∈ t :: ts, u.isNumber = false := by
  have hranks := ranksAscend_of_isChain hchain
  intro u hu
  rcases List.mem_cons.mp hu with rfl | hmem
  · exact ht
  · have hle := (List.pairwise_cons.mp hranks).1 u hmem
    rw [Bool.eq_false_iff] at ht ⊢
    intro hnum
    exact ht (isNumber_iff_rank.mpr (le_trans hle (isNumber_iff_rank.mp hnum)))

/-- The term of a member of a settled sum, seen as a multiple, has sorted factors. -/
theorem Settled.multiple {t : Term} (h : Settled t) (ht : t.isNumber = false) :
    PlainFactors (Multiple.ofTerm t).term := by
  have hparts : ∀ ts, t = product ts → (∀ u ∈ ts, Settled u) ∧ OperationSettled .product ts := by
    rintro ts rfl
    exact ⟨h.members .product, settledHere_apply.mp h.here⟩
  have hsingle : ∀ u : Term, Settled u → u.isNumber = false → u.factors = [u] →
      PlainFactors u := by
    intro u hu hnum hfactors
    refine ⟨hu.sorted, ?_, ?_, ?_⟩
    · rw [hfactors]
      simpa using hu.sorted
    · rw [hfactors]
      simpa using hnum
    · rw [hfactors]
      exact List.isChain_singleton u
  -- a number and one factor, a number and several factors, or no number in front
  unfold Multiple.ofTerm
  split
  · rename_i k u
    obtain ⟨hall, hsettled⟩ := hparts _ rfl
    refine hsingle u (hall u (by simp)) (hsettled.tail u (by simp)) ?_
    rw [Operation.factors_eq_lift, Operation.lift, hsettled.no_lift u (by simp)]
    rfl
  · rename_i k us _
    obtain ⟨hall, hsettled⟩ := hparts _ rfl
    have hus : ∀ u ∈ us, Sorted u := fun u hu => (hall u (by simp [hu])).sorted
    have hchain := (List.isChain_cons.mp hsettled.sorted).2
    exact ⟨Everywhere.apply .product (sortedHere_apply.mpr hchain) hus, hus, hsettled.tail, hchain⟩
  · rename_i hmore
    cases t with
    | product ts =>
      obtain ⟨hall, hsettled⟩ := hparts ts rfl
      cases ts with
      | nil => exact absurd hsettled.two_le_length (by simp)
      | cons u us =>
        have hu : u.isNumber = false := by
          rw [Bool.eq_false_iff]
          intro hnum
          obtain ⟨k, rfl⟩ := isNumber_iff.mp hnum
          exact hmore k us rfl
        exact ⟨h.sorted, fun v hv => (hall v hv).sorted, isNumber_of_head hu hsettled.sorted,
          hsettled.sorted⟩
    | _ => exact hsingle _ h ht rfl

/-- Merged multiples are sorted. -/
theorem mergeMultiples_sorted {first : Multiple} (hfirst : PlainFactors first.term)
    (run : List Multiple) :
    Meets (mergeMultiples first run) (fun out => ∀ t ∈ out, Sorted t) fun _ => True := by
  unfold mergeMultiples
  exact (meets_true _).bind fun k _ => hfirst.multiple? k

/-- What merging like members leaves is sorted. -/
theorem mergeLike_sorted (hf : Settles f) (op : Operation) {ts : List Term}
    (hts : ∀ t ∈ ts, Settled t ∧ t.isNumber = false) :
    Meets (mergeLike f op ts) (fun out => ∀ combined ∈ out, ∀ t ∈ combined, Sorted t)
      fun _ => True := by
  cases op with
  | product =>
    have hitems : ∀ a ∈ ts.map Factor.ofTerm, SortedFactor a := by
      intro a ha
      obtain ⟨t, ht, rfl⟩ := List.mem_map.mp ha
      exact (hts t ht).1.sorted.factor
    refine (mergeRuns_meets (P := fun _ => True) (Q := fun _ out => ∀ t ∈ out, Sorted t)
      (fun _ _ _ _ => meets_true _) (fun _ _ => trivial) fun first more _ hsub _ => ?_).imp
      fun out hout combined hcombined => ?_
    · exact mergeFactors_sorted hf (hitems first (hsub.subset (by simp)))
        fun a ha => hitems a (hsub.subset ha)
    · rw [Option.mem_def.mp hcombined] at hout
      exact hout.forall_mem (fun a ha => (hitems a ha).whole) fun _ _ h => h
  | sum =>
    have hitems : ∀ a ∈ ts.map Multiple.ofTerm, PlainFactors a.term ∧ Sorted a.whole := by
      intro a ha
      obtain ⟨t, ht, rfl⟩ := List.mem_map.mp ha
      rw [Multiple.ofTerm_whole]
      exact ⟨(hts t ht).1.multiple (hts t ht).2, (hts t ht).1.sorted⟩
    refine (mergeRuns_meets (P := fun _ => True) (Q := fun _ out => ∀ t ∈ out, Sorted t)
      (fun _ _ _ _ => meets_true _) (fun _ _ => trivial) fun first more _ hsub _ => ?_).imp
      fun out hout combined hcombined => ?_
    · exact mergeMultiples_sorted (hitems first (hsub.subset (by simp))).1 _
    · rw [Option.mem_def.mp hcombined] at hout
      exact hout.forall_mem (fun a ha => (hitems a ha).2) fun _ _ h => h

end Like

/-! ## Sums and products -/

variable {f : Term → Outcome Reduced} {op : Operation}

/-- Settled members make a settled operation, if there are two of them and nothing is left to do
with them together; otherwise there is no operation. -/
theorem ofMembers_settled {us : List Term} {changed : Bool} (hus : ∀ u ∈ us, Settled u)
    (h : 2 ≤ us.length → OperationSettled op us) : Settled (ofMembers op us changed).term :=
  ofMembers_cases (settled_number _) hus fun hmany =>
    Everywhere.apply op (settledHere_apply.mpr (h hmany)) hus

/-- What is left of a sum or a product in which there was nothing to merge is settled. -/
theorem operationSettled_of_kept {front numbers : List Number} {rest : List Term} {any : Bool}
    (hmembers : ∀ u ∈ front.map number ++ rest, SettledMember op u)
    (hbehind : ∀ t ∈ rest, t.isNumber = false) (hchain : rest.IsChain (InOrder order))
    (hnumbers : mergeNumbers op front rest.isEmpty = .ok (numbers, any))
    (hlike : mergeLike f op rest = .ok none)
    (htwo : 2 ≤ (numbers.map number ++ rest).length) :
    OperationSettled op (numbers.map number ++ rest) := by
  have hone := ((mergeNumbers_meets op _ _).of_ok hnumbers).length_le_one
  have hlead := leadingNumbers_numbers_append numbers hbehind
  refine ⟨?_, htwo, forall_numbers_append (fun x _ => ?_) fun u hu => ?_, ?_, ?_⟩
  · match numbers, hone with
    | [], _ => exact hchain
    | [x], _ => exact isChain_number_cons hbehind hchain
  · cases op <;> rfl
  · exact (hmembers u (by simp [hu])).no_lift
  · rw [hlead]
    exact mergeNumbers_merged hnumbers
  · rw [hlead]
    exact fun g => mergeLike_none hlike

/-- One step of reducing an operation leaves a settled term. -/
theorem reduceOperation_settles (hf : Settles f) {ts : List Term} (hts : ∀ t ∈ ts, Sorted t)
    {r : Reduced} (h : reduceOperation f op ts = .ok r) : Settled r.term := by
  obtain ⟨front, rest, sorted, rs, changed, hred, hlead, hend⟩ := reduceOperation_cases h
  obtain ⟨hmembers, hchain⟩ := hred.settled hf hts
  have hbehind : ∀ t ∈ rest, t.isNumber = false :=
    isNumber_behind (ranksAscend_of_isChain hchain) hlead
  have hrest : ∀ t ∈ rest, Settled t := fun t ht => (hmembers t (by simp [ht])).settled
  cases hend with
  | absorbed => exact settled_number _
  | @merged numbers any combined r _ hlike hagain =>
    have hcombined := (mergeLike_sorted hf op fun t ht => ⟨hrest t ht, hbehind t ht⟩).of_ok
      hlike combined rfl
    have hall : ∀ u ∈ numbers.map number ++ combined, Sorted u :=
      forall_numbers_append (fun x _ => sorted_number x) hcombined
    exact ((hf _ (partsSorted_apply op hall)).of_ok hagain).2.settled
  | @kept numbers any _ hnumbers hlike =>
    have hall : ∀ u ∈ numbers.map number ++ rest, Settled u :=
      forall_numbers_append (fun x _ => settled_number x) hrest
    exact ofMembers_settled hall (operationSettled_of_kept hmembers hbehind
      (List.isChain_append.mp hchain).2.1 hnumbers hlike)

/-! ## Powers -/

section Power

variable {b e : Term}

/-- Combining settled base and exponent leaves a settled term. Where nothing is to be combined,
nothing was to be combined in the first place. -/
theorem combinePower_settles (hf : Settles f) (hb : Settled b) (he : Settled e)
    {whole : Option Int} (changed : Bool)
    (hkept : combinePower reduce b e whole false = .ok ⟨power b e, false⟩ →
      Settled (power b e)) :
    Meets (combinePower f b e whole changed) (fun r => Settled r.term) fun _ => True := by
  cases b with
  | number x =>
    refine (meets_true (numberPower? x e whole)).eq_and.bind fun out hout => ?_
    cases out with
    | some y => exact settled_number y
    | none =>
      refine hkept ?_
      rw [combinePower, hout.1]
      rfl
  | power b' e' =>
    have hexponents : ∀ u ∈ [e', e], Sorted u := by
      intro u hu
      rcases List.mem_cons.mp hu with rfl | hu
      · exact Settled.sorted hb.exponent
      · obtain rfl := List.mem_singleton.mp hu
        exact he.sorted
    refine (hf _ (partsSorted_apply .product hexponents)).bind fun x hx => ?_
    by_cases hsplit : (splitExponent? x.term).isSome = true
    · rw [if_pos hsplit]
      -- the rule looks at the reduced exponents only, so it finds the same ones again
      have hx' : (product [e', e]).reduce = .ok x := hx.1
      refine hkept ?_
      rw [combinePower, hx', ok_bind, if_pos hsplit]
      rfl
    · rw [if_neg hsplit]
      refine (hf _ (partsSorted_power (Settled.sorted hb.base) hx.2.settled.sorted)).bind
        fun r hr => ?_
      exact hr.2.settled
  | product ts =>
    have hpowers : ∀ u ∈ ts.map (.power · e), Sorted u := by
      intro u hu
      obtain ⟨t, ht, rfl⟩ := List.mem_map.mp hu
      exact Everywhere.power trivial (hb.sorted.inside t ht) he.sorted
    exact (hf _ (partsSorted_apply .product hpowers)).bind fun r hr => hr.2.settled
  | var name => exact hkept rfl
  | sum ts => exact hkept rfl
  | call c ts => exact hkept rfl

/-- One step of reducing a power leaves a settled term. -/
theorem reducePower_settles (hf : Settles f) (hb : Settled b) (he : Settled e)
    (changed : Bool) :
    Meets (reducePower f b e changed) (fun r => Settled r.term) fun _ => True := by
  refine reducePower_meets (fun n d _ => ?_) fun hsplit => ?_
  · have hpower : Sorted (power b (number (.ratio n 1))) :=
      Everywhere.power trivial hb.sorted (sorted_number _)
    exact (hf _ (partsSorted_power hpower (sorted_number _))).imp fun r hr => hr.2.settled
  refine (meets_true (wholeExponent? e)).eq_and.imp fun whole hwhole =>
    ⟨fun _ => hb, fun _ => settled_number _, fun hone hzero => ?_⟩
  -- a power that is kept has no rule, so it is kept whenever it is reduced again
  refine combinePower_settles hf hb he changed fun hkept => Everywhere.power ?_ hb he
  change reducePower reduce b e false = _
  unfold reducePower
  rw [hsplit]
  simp only [hwhole.1, ok_bind]
  rw [if_neg hone, if_neg hzero]
  exact hkept

end Power

/-! ## All terms -/

/-- A step of reducing an operation settles it, and says that it did something if it did. -/
theorem reduceOperation_normal (hf : Settles f) {ts : List Term}
    (hts : ∀ t ∈ ts, Sorted t) :
    Meets (reduceOperation f op ts) (Normal (op.apply ts)) fun _ => True := by
  cases h : reduceOperation f op ts with
  | error e => exact trivial
  | ok r =>
    refine ⟨reduceOperation_settles hf hts h, fun hr hsorted => ?_⟩
    obtain ⟨rs, hrs, hterm, -⟩ :=
      reduceOperation_unperformed (sortedHere_apply.mp hsorted.here) h hr
    rw [hterm, terms_eq_of_unperformed hf hts hrs]

/-- A step of reduction settles a term with sorted parts, and says that it did something if it did.
-/
theorem reduceStep_normal (hf : Settles f) {t : Term} (ht : PartsSorted t) :
    Meets (reduceStep f t) (Normal t) fun _ => True := by
  cases t with
  | number x => exact ⟨settled_number x, fun _ _ => rfl⟩
  | var name => exact ⟨⟨trivial, fun u hu => by simp [parts] at hu⟩, fun _ _ => rfl⟩
  | product ts => exact reduceOperation_normal hf ht
  | sum ts => exact reduceOperation_normal hf ht
  | power b e =>
    have hb : Sorted b := ht b (by simp [parts])
    have he : Sorted e := ht e (by simp [parts])
    rw [reduceStep]
    refine (hf b hb.partsSorted).bind fun rb hrb => ?_
    refine (hf e he.partsSorted).bind fun re hre => ?_
    cases h : reducePower f rb.term re.term (rb.performed || re.performed) with
    | error e => exact trivial
    | ok r =>
      refine ⟨(reducePower_settles hf hrb.2.settled hre.2.settled _).of_ok h, fun hr _ => ?_⟩
      -- nothing was performed, neither on the parts nor on the power
      obtain ⟨hstill, hterm⟩ := (reducePower_unperformed _ _ _ _).of_ok h hr
      obtain ⟨hbstill, hestill⟩ := Bool.or_eq_false_iff.mp hstill
      rw [hterm, hrb.2.still hbstill hb, hre.2.still hestill he]
  | call c ts =>
    rw [reduceStep]
    refine (Meets.mapM fun u hu => (hf u (ht u hu).partsSorted).eq_and).bind fun rs hrs => ?_
    refine ⟨⟨trivial, fun u hu => ?_⟩, fun hr _ => ?_⟩
    · obtain ⟨r, hr, rfl⟩ := List.mem_map.mp hu
      obtain ⟨t, -, hnormal⟩ := exists_of_forall₂_right hrs hr
      exact hnormal.2.2.settled
    · have hunperformed : ∀ r ∈ rs, r.performed = false := by
        intro r hmem
        exact Bool.eq_false_iff.mpr (List.any_eq_false.mp hr r hmem)
      have hreduced := forall₂_and_right (hrs.imp fun _ _ h => h.1) hunperformed
      exact congrArg (call c) (terms_eq_of_unperformed hf ht hreduced)

/-- What reduction makes of a term with sorted parts is settled. -/
theorem reduce_normal {t : Term} (ht : PartsSorted t) :
    Meets t.reduce (Normal t) fun _ => True :=
  reduce_induction (D := PartsSorted) (E := fun _ _ => True)
    (fun _ hf _ ht => (reduceStep_normal
      (fun u hu => (hf u hu).mono (fun _ h => h) fun _ _ => trivial) ht).mono
        (fun _ h => h) fun _ _ => Or.inr trivial) t ht

/-- Reducing what flattening and sorting give, and then reducing the result again, does
nothing the second time, just if the result has no product with a zero among its factors. -/
theorem reduce_reduce_iff {t s : Term} {r : Reduced} (hs : t.flatten.sort = .ok s)
    (hr : s.reduce = .ok r) :
    r.term.reduce = .ok ⟨r.term, false⟩ ↔ Everywhere NoZeroFactor r.term := by
  -- sorting gives sorted parts, reduction settles them, and a settled term has only the check
  -- for zero factors left to fail
  have hsorted := (sort_sorted t.flatten).of_ok hs
  have hsettled := ((reduce_normal hsorted.partsSorted).of_ok hr).settled
  exact ⟨noZeroFactor_of_reduce hsettled.sorted, reduce_of_settled hsettled⟩

/-- `2 * x * x` becomes `2 * x^2`, and stays that. -/
theorem reduce_reduce_square :
    let s := product [number (.ratio 2 1), var "x", var "x"]
    let t := product [number (.ratio 2 1), power (var "x") (number (.ratio 2 1))]
    s.flatten.sort = .ok s ∧ s.reduce = .ok ⟨t, true⟩ ∧ t.reduce = .ok ⟨t, false⟩ := by
  intro s t
  have hs : s.flatten.sort = .ok s := rfl
  have hwithin : reduceWithin 4 s = .ok ⟨t, true⟩ := by with_unfolding_all rfl
  have hr : s.reduce = .ok ⟨t, true⟩ := reduce_of_reduceWithin hwithin
  have hpower : Everywhere NoZeroFactor (power (var "x") (number (.ratio 2 1))) :=
    Everywhere.power trivial ⟨trivial, fun u hu => by simp [parts] at hu⟩
      (Everywhere.number trivial)
  have hzero : Everywhere NoZeroFactor t := by
    refine Everywhere.apply .product (fun x hx => ?_) fun u hu => ?_
    · obtain rfl : x = .ratio 2 1 := by simpa using hx
      rfl
    · rcases List.mem_cons.mp hu with rfl | hu
      · exact Everywhere.number trivial
      · obtain rfl := List.mem_singleton.mp hu
        exact hpower
  exact ⟨hs, hr, (reduce_reduce_iff hs hr).mpr hzero⟩

/-- The product of two decimals may be too small to be told from zero. The zero is seen only
when the result is reduced once more. -/
theorem reduce_twice_vanishes :
    let tiny := number (.decimal ⟨false, 1, -20⟩ .exact)
    let none := number (.decimal ⟨false, 0, -28⟩ .exact)
    let s := product [tiny, tiny, var "x"]
    let t := product [none, var "x"]
    s.flatten.sort = .ok s ∧ s.reduce = .ok ⟨t, true⟩ ∧
      t.reduce = .ok ⟨number Number.zero, true⟩ := by
  intro tiny none s t
  have hs : s.flatten.sort = .ok s := rfl
  have hfirst : reduceWithin 2 s = .ok ⟨t, true⟩ := by with_unfolding_all rfl
  have hsecond : reduceWithin 2 t = .ok ⟨number Number.zero, true⟩ := by with_unfolding_all rfl
  exact ⟨hs, reduce_of_reduceWithin hfirst,
    reduce_of_reduceWithin hsecond⟩

end Mathpad.Term
