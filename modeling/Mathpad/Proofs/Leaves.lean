import Mathpad.Proofs.Everywhere
import Mathpad.Proofs.Operations

/-!
# What a term is made of

Reduction moves the numbers, variables and calls of a term around and computes new
numbers; it makes up nothing else. So what is required of each of them is kept, as soon
as arithmetic on numbers keeps it.
-/
set_option autoImplicit false

namespace Mathpad.Term

/-- What is required of the numbers, of the names of variables, and of a call with a
number of arguments. -/
structure Leaves where
  number : Number → Prop
  name : String → Prop
  call : NamedFunction → Nat → Prop

namespace Leaves

/-- A node is as required; sums, products and powers always are. -/
def Here (L : Leaves) : Term → Prop
  | .number x => L.number x
  | .var name => L.name name
  | .call f ts => L.call f ts.length
  | _ => True

/-- The term is made of what is required. -/
def In (L : Leaves) (t : Term) : Prop := Everywhere L.Here t

/-- Reduction can keep the requirements: arithmetic does, and whatever else it asks for on
the way has no other faults than `E`. -/
structure Closed (L : Leaves) (E : Fault → Prop) : Prop where
  neutral (op : Operation) : L.number op.neutral
  combine (op : Operation) {x y : Number} : L.number x → L.number y →
    Meets (op.combine x y) L.number E
  powInt {x : Number} (n : Int) : L.number x → Meets (x.powInt n) L.number E
  pow {x : Number} {v : Decimal} {a : Accuracy} : L.number x → L.number (.decimal v a) →
    Meets (x.pow (.decimal v a)) L.number E
  split {n d : Int} : L.number (.ratio n d) → L.number (.ratio n 1) ∧ L.number (.ratio 1 d)
  whole {x : Number} : L.number x → Meets x.whole? (fun _ => True) E
  order {t u : Term} : L.In t → L.In u → Meets (order t u) (fun _ => True) E

variable {L : Leaves} {E : Fault → Prop} {f : Term → Outcome Reduced} {b e : Term}

/-! ## Parts -/

theorem in_number {x : Number} (h : L.number x) : L.In (.number x) := Everywhere.number h

theorem In.number {x : Number} (h : L.In (.number x)) : L.number x := h.here

theorem in_apply (op : Operation) {ts : List Term} (h : ∀ t ∈ ts, L.In t) : L.In (op.apply ts) :=
  Everywhere.apply op (by cases op <;> trivial) h

/-- A power is made of what its base and its exponent are made of. -/
theorem in_power (hb : L.In b) (he : L.In e) : L.In (.power b e) :=
  Everywhere.power trivial hb he

/-- What a term is spliced in as is made of what the term is made of. -/
theorem in_lift {op : Operation} {t u : Term} (ht : L.In t) (hu : u ∈ op.lift t) : L.In u := by
  rcases Operation.mem_lift hu with rfl | ⟨ts, rfl, hmem⟩
  · exact ht
  · exact ht.members op u hmem

/-- A term as a factor brings in the exponent one, and nothing else. -/
theorem in_factor {t : Term} (ht : L.In t) (hone : L.number Number.one) :
    L.In (Factor.ofTerm t).base ∧ L.In (Factor.ofTerm t).exponent := by
  cases t with
  | power b e => exact ⟨ht.base, ht.exponent⟩
  | _ => exact ⟨ht, in_number hone⟩

/-- A term as a multiple brings in the coefficient one, and nothing else. -/
theorem in_multiple {t : Term} (ht : L.In t) (hone : L.number Number.one) :
    L.In (Multiple.ofTerm t).term ∧ L.number (Multiple.ofTerm t).coefficient := by
  have hproduct : ∀ {k : Number} {ts : List Term}, L.In (.product (.number k :: ts)) →
      L.number k ∧ ∀ u ∈ ts, L.In u := by
    intro k ts h
    have hk : L.In (.number k) := h.members .product _ (by simp)
    exact ⟨hk.number, fun u hu => h.members .product u (by simp [hu])⟩
  unfold Multiple.ofTerm
  split
  · exact ⟨(hproduct ht).2 _ (by simp), (hproduct ht).1⟩
  · exact ⟨in_apply .product (hproduct ht).2, (hproduct ht).1⟩
  · exact ⟨ht, hone⟩

/-- A multiple of a term brings in its coefficient, and nothing else. -/
theorem in_multiple? {k : Number} {t u : Term} (hk : L.number k) (ht : L.In t)
    (hu : u ∈ multiple? k t) : L.In u := by
  unfold multiple? at hu
  by_cases hzero : k.isZero = true
  · rw [if_pos hzero] at hu
    cases hu
  · rw [if_neg hzero] at hu
    by_cases hone : k.isOne = true
    · rw [if_pos hone] at hu
      rw [← Option.some.inj hu]
      exact ht
    · rw [if_neg hone] at hu
      rw [← Option.some.inj hu]
      refine in_apply .product fun v hv => ?_
      rcases List.mem_cons.mp hv with rfl | hv
      · exact in_number hk
      · rw [Operation.factors_eq_lift] at hv
        exact in_lift ht hv

/-- What is put together from members is made of what they are made of, or is the neutral number. -/
theorem in_ofMembers (hL : L.Closed E) {op : Operation} {us : List Term} {changed : Bool}
    (hus : ∀ u ∈ us, L.In u) : L.In (ofMembers op us changed).term :=
  ofMembers_cases (in_number (hL.neutral op)) hus fun _ => in_apply op hus

/-! ## Flattening and sorting -/

/-- Flattening brings in nothing. -/
theorem In.flatten {t : Term} (h : L.In t) : L.In t.flatten := by
  induction t using operation_induction with
  | number x => exact h
  | var name => exact h
  | operation op ts ih =>
    rw [flatten_apply]
    refine in_apply op fun u hu => ?_
    obtain ⟨v, hv, hu⟩ := List.mem_flatMap.mp hu
    obtain ⟨t, ht, rfl⟩ := List.mem_map.mp hv
    exact in_lift (ih t ht (h.members op t ht)) hu
  | power b e ihb ihe => exact in_power (ihb h.base) (ihe h.exponent)
  | call f ts ih =>
    rw [Term.flatten, flattenAll_eq_map]
    refine ⟨?_, fun u hu => ?_⟩
    · have hcall : L.call f ts.length := h.here
      rw [← List.length_map (f := Term.flatten)] at hcall
      exact hcall
    · obtain ⟨t, ht, rfl⟩ := List.mem_map.mp hu
      exact ih t ht (h.inside t ht)

/-- Sorting fails only where a comparison does. -/
theorem In.sort_meets {t : Term} (h : L.In t)
    (horder : ∀ t u, L.In t → L.In u → Meets (order t u) (fun _ => True) E) :
    Meets t.sort L.In E := by
  induction t using operation_induction with
  | number x => exact h
  | var name => exact h
  | operation op ts ih =>
    rw [sort_apply]
    refine (Meets.mapM fun t ht => ih t ht (h.members op t ht)).bind fun us hus => ?_
    have hin : ∀ u ∈ us, L.In u := fun u hu => by
      obtain ⟨t, -, hu⟩ := exists_of_forall₂_right hus hu
      exact hu
    refine (sortBy_meets fun t ht u hu => horder t u (hin t ht) (hin u hu)).bind
      fun sorted hsorted => ?_
    exact in_apply op fun u hu => hin u (hsorted.subset hu)
  | power b e ihb ihe =>
    rw [Term.sort]
    refine (ihb h.base).bind fun b' hb => ?_
    exact (ihe h.exponent).bind fun e' he => in_power hb he
  | call f ts ih =>
    rw [Term.sort, sortAll_eq_mapM]
    refine (Meets.mapM fun t ht => ih t ht (h.inside t ht)).bind fun us hus => ?_
    refine ⟨?_, fun u hu => ?_⟩
    · -- sorting the arguments of a call leaves their number alone
      have hcall : L.call f ts.length := h.here
      rw [hus.length_eq] at hcall
      exact hcall
    · obtain ⟨t, -, hu⟩ := exists_of_forall₂_right hus hu
      exact hu

theorem In.sort {t : Term} (h : L.In t) : Meets t.sort L.In Fault.IsMaths :=
  h.sort_meets fun t u _ _ => order_isMaths t u

/-! ## Numbers -/

/-- The total of some numbers, if the operation keeps what is true of each of them. -/
theorem total_keeps_each {P : Number → Prop} {op : Operation}
    (hcombine : ∀ x y, P x → P y → Meets (op.combine x y) P E) {numbers : List Number}
    {start : Number} (hstart : P start) (h : ∀ x ∈ numbers, P x) :
    Meets (numbers.foldlM op.combine start) P E :=
  Meets.foldlM (fun rest total => P total ∧ ∀ x ∈ rest, P x)
    (fun x xs total hxs => (hcombine total x hxs.1 (hxs.2 x (by simp))).imp fun _ hy =>
      ⟨hy, fun z hz => hxs.2 z (by simp [hz])⟩) numbers ⟨hstart, h⟩ |>.imp fun _ h => h.1

/-- Merging numbers keeps what combining two of them keeps. -/
theorem mergeNumbers_keeps_each {P : Number → Prop} {op : Operation} (hneutral : P op.neutral)
    (hcombine : ∀ x y, P x → P y → Meets (op.combine x y) P E) {numbers : List Number}
    (h : ∀ x ∈ numbers, P x) (alone : Bool) :
    Meets (mergeNumbers op numbers alone) (fun out => ∀ x ∈ out.1, P x) E := by
  unfold Term.mergeNumbers
  by_cases hempty : numbers.isEmpty = true
  · rw [if_pos hempty]
    simp
  · rw [if_neg hempty]
    refine (total_keeps_each hcombine hneutral h).bind fun total htotal => ?_
    by_cases hneutral : (op.isNeutral total && !alone) = true
    · rw [if_pos hneutral]
      simp
    · rw [if_neg hneutral]
      by_cases hlong : 1 < numbers.length
      · rw [if_pos hlong]
        simpa using htotal
      · rw [if_neg hlong]
        exact h

/-- Combining some numbers, one after the other, keeps what is required. -/
theorem Closed.total (hL : L.Closed E) (op : Operation) {numbers : List Number} {start : Number}
    (hstart : L.number start) (h : ∀ x ∈ numbers, L.number x) :
    Meets (numbers.foldlM op.combine start) L.number E :=
  total_keeps_each (fun _ _ hx hy => hL.combine op hx hy) hstart h

/-- Merging the numbers of an operation keeps what is required. -/
theorem Closed.mergeNumbers (hL : L.Closed E) (op : Operation) {numbers : List Number}
    (h : ∀ x ∈ numbers, L.number x) (alone : Bool) :
    Meets (mergeNumbers op numbers alone) (fun out => ∀ x ∈ out.1, L.number x) E :=
  mergeNumbers_keeps_each (hL.neutral op) (fun _ _ hx hy => hL.combine op hx hy) h alone

/-- A power of numbers that is computed is as required. -/
theorem Closed.numberPower? (hL : L.Closed E) {x : Number} (hx : L.number x) (he : L.In e)
    (whole : Option Int) :
    Meets (numberPower? x e whole) (fun out => ∀ y, out = some y → L.number y) E := by
  have hsome : ∀ {o : Outcome Number}, Meets o L.number E →
      Meets (some <$> o) (fun out => ∀ y, out = some y → L.number y) E := fun ho =>
    Meets.map (ho.imp fun z hz y hy => by
      obtain rfl := Option.some.inj hy
      exact hz)
  unfold Term.numberPower?
  cases whole with
  | some n => exact hsome (hL.powInt n hx)
  | none =>
    cases e with
    | number y =>
      cases y with
      | ratio n d => exact nofun
      | decimal v a => exact hsome (hL.pow hx he.number)
    | _ => exact nofun

/-! ## The rules -/

/-- The reductions that are asked for keep what is required. -/
def Kept (L : Leaves) (E : Fault → Prop) (f : Term → Outcome Reduced) : Prop :=
  ∀ u, L.In u → Meets (f u) (fun r => L.In r.term) E

/-- Factors of one base are merged into one of that base, whose exponent is a reduced sum. -/
theorem Closed.mergeFactors (hf : L.Kept E f) {items : List Factor}
    (hitems : ∀ a ∈ items, L.In a.base ∧ L.In a.exponent) {first : Factor} {run : List Factor}
    (hfirst : first ∈ items) (hsub : run.Subperm items) :
    Meets (mergeFactors f first run) (fun out => ∀ u ∈ out, L.In u) E := by
  unfold Term.mergeFactors
  have hexps : L.In (sum (run.map (·.exponent))) := by
    refine in_apply .sum fun e he => ?_
    obtain ⟨a, ha, rfl⟩ := List.mem_map.mp he
    exact (hitems a (hsub.subset ha)).2
  refine (hf _ hexps).bind fun x hx => ?_
  refine (hf (.power first.base x.term) (in_power (hitems first hfirst).1 hx)).bind
    fun p hp => ?_
  intro u hu
  rw [← Option.some.inj hu]
  exact hp

/-- Multiples of one term are merged into one of that term, whose coefficient is a sum. -/
theorem Closed.mergeMultiples (hL : L.Closed E) {items : List Multiple}
    (hitems : ∀ a ∈ items, L.In a.term ∧ L.number a.coefficient) {first : Multiple}
    {run : List Multiple} (hfirst : first ∈ items) (hsub : run.Subperm items) :
    Meets (mergeMultiples first run) (fun out => ∀ u ∈ out, L.In u) E := by
  unfold Term.mergeMultiples
  have hnumbers : ∀ x ∈ run.map (·.coefficient), L.number x := by
    intro x hx
    obtain ⟨a, ha, rfl⟩ := List.mem_map.mp hx
    exact (hitems a (hsub.subset ha)).2
  refine (hL.total .sum (hL.neutral .sum) hnumbers).bind fun k hk => ?_
  exact fun u hu => in_multiple? hk (hitems first hfirst).1 hu

/-- Merging what is alike keeps what is required, in products and in sums. -/
theorem Closed.mergeLike (hL : L.Closed E) (hf : L.Kept E f) {rest : List Term}
    (hrest : ∀ u ∈ rest, L.In u) (op : Operation) :
    Meets (mergeLike f op rest)
      (fun out => ∀ combined, out = some combined → ∀ u ∈ combined, L.In u) E := by
  have hone : L.number Number.one := hL.neutral .product
  -- a factor is taken apart into base and exponent, a summand into coefficient and term; the runs
  -- are merged alike
  cases op with
  | product =>
    have hitems : ∀ a ∈ rest.map Factor.ofTerm, L.In a.base ∧ L.In a.exponent := by
      intro a ha
      obtain ⟨u, hu, rfl⟩ := List.mem_map.mp ha
      exact in_factor (hrest u hu) hone
    have hruns : Meets (Term.mergeLike f .product rest)
        (RunsMerged Factor.whole (fun _ out => ∀ u ∈ out, L.In u) (rest.map Factor.ofTerm)) E :=
      mergeRuns_meets (P := fun a => L.In a.base) (fun a b ha hb => hL.order ha hb)
        (fun a ha => (hitems a ha).1) fun first more _ hsub _ =>
          Closed.mergeFactors hf hitems (hsub.subset (by simp)) hsub
    refine hruns.imp fun out hout combined hc => ?_
    rw [hc] at hout
    exact hout.forall_mem (forall_whole Factor.ofTerm_whole hrest) fun _ _ hq => hq
  | sum =>
    have hitems : ∀ a ∈ rest.map Multiple.ofTerm, L.In a.term ∧ L.number a.coefficient := by
      intro a ha
      obtain ⟨u, hu, rfl⟩ := List.mem_map.mp ha
      exact in_multiple (hrest u hu) hone
    have hruns : Meets (Term.mergeLike f .sum rest)
        (RunsMerged Multiple.whole (fun _ out => ∀ u ∈ out, L.In u) (rest.map Multiple.ofTerm))
        E :=
      mergeRuns_meets (P := fun a => L.In a.term) (fun a b ha hb => hL.order ha hb)
        (fun a ha => (hitems a ha).1) fun first more _ hsub _ =>
          hL.mergeMultiples hitems (hsub.subset (by simp)) hsub
    refine hruns.imp fun out hout combined hc => ?_
    rw [hc] at hout
    exact hout.forall_mem (forall_whole Multiple.ofTerm_whole hrest) fun _ _ hq => hq

/-- One step of reducing a sum or a product keeps what is required. -/
theorem Closed.reduceOperation (hL : L.Closed E) (hf : L.Kept E f) (op : Operation)
    {ts : List Term} (hts : ∀ t ∈ ts, L.In t) :
    Meets (reduceOperation f op ts) (fun r => L.In r.term) E := by
  have hmembers : Meets (reduceMembers f op ts) (fun out => ∀ u ∈ out.1, L.In u) E := by
    refine (reduceMembers_meets op (P := L.In) (Q := fun _ r => L.In r.term)
      (fun t u ht hu => hL.order ht hu) hts fun t ht => ?_).imp fun out hout u hu => ?_
    · exact (hf t (hts t ht)).imp fun r hr => ⟨hr, fun u hu => in_lift hr hu⟩
    · obtain ⟨sorted, rs, hred⟩ := hout
      obtain ⟨r, hr, hu⟩ := List.mem_flatMap.mp (hred.members_perm.subset hu)
      obtain ⟨t, _, hin⟩ := exists_of_forall₂_right hred.reduced hr
      exact in_lift hin hu
  refine reduceOperation_meets (M := fun members _ => ∀ u ∈ members, L.In u)
    hmembers (fun _ _ _ _ _ _ => in_number (hL.neutral .sum)) fun numbers rest changed hall _ _ => ?_
  have hnumbers : ∀ x ∈ numbers, L.number x := fun x hx => (hall (.number x) (by simp [hx])).number
  have hrest : ∀ u ∈ rest, L.In u := fun u hu => hall u (by simp [hu])
  refine (hL.mergeNumbers op hnumbers rest.isEmpty).imp fun merged hmerged => ?_
  have hboth : ∀ us : List Term, (∀ u ∈ us, L.In u) →
      ∀ u ∈ merged.1.map Term.number ++ us, L.In u := fun us hus =>
    forall_numbers_append (P := L.In) (fun x hx => in_number (hmerged x hx)) hus
  refine (hL.mergeLike hf hrest op).imp fun out hout => ⟨fun combined hc => ?_,
    fun _ => in_ofMembers hL (hboth rest hrest)⟩
  exact hf _ (in_apply op (hboth combined (hout combined hc)))

/-- Combining a base with its exponent keeps what is required. -/
theorem Closed.combinePower (hL : L.Closed E) (hf : L.Kept E f) (hb : L.In b) (he : L.In e)
    (whole : Option Int) (changed : Bool) :
    Meets (combinePower f b e whole changed) (fun r => L.In r.term) E := by
  cases b with
  | number x =>
    rw [Term.combinePower]
    refine (hL.numberPower? hb.number he whole).bind fun y hy => ?_
    cases y with
    | none => exact in_power hb he
    | some y => exact in_number (hy y rfl)
  | power b' e' =>
    rw [Term.combinePower]
    have hboth : L.In (.product [e', e]) := in_apply .product fun u hu => by
      rcases List.mem_cons.mp hu with rfl | hu
      · exact hb.exponent
      · rw [List.mem_singleton.mp hu]
        exact he
    refine (hf _ hboth).bind fun x hx => ?_
    by_cases hxs : (splitExponent? x.term).isSome = true
    · rw [if_pos hxs]
      exact in_power hb he
    · rw [if_neg hxs]
      exact (hf _ (in_power hb.base hx)).bind fun r hr => hr
  | product ts =>
    rw [Term.combinePower]
    refine (hf _ (in_apply .product fun u hu => ?_)).bind fun r hr => hr
    obtain ⟨v, hv, rfl⟩ := List.mem_map.mp hu
    exact in_power (hb.members .product v hv) he
  | _ => exact in_power hb he

/-- A fraction that is split is an exponent of the term. -/
theorem eq_of_splitExponent? {n d : Int} (h : splitExponent? e = some (n, d)) :
    e = .number (.ratio n d) := by
  unfold splitExponent? at h
  split at h
  · split at h
    · cases h
      rfl
    · cases h
  · cases h

/-- One step of reducing a power keeps what is required. -/
theorem Closed.reducePower (hL : L.Closed E) (hf : L.Kept E f) (hb : L.In b) (he : L.In e)
    (changed : Bool) : Meets (reducePower f b e changed) (fun r => L.In r.term) E := by
  refine reducePower_meets (fun n d hsplit => ?_) fun _ => ?_
  · rw [eq_of_splitExponent? hsplit] at he
    obtain ⟨hn, hd⟩ := hL.split he.number
    exact hf _ (in_power (in_power hb (in_number hn)) (in_number hd))
  · have hwhole : Meets (wholeExponent? e) (fun _ => True) E := by
      cases e with
      | number x => exact hL.whole he.number
      | _ => exact trivial
    refine hwhole.imp fun whole _ => ⟨fun _ => hb, fun _ => ?_, fun _ _ => ?_⟩
    · exact in_number (hL.neutral .product)
    · exact hL.combinePower hf hb he whole changed

/-- One step of reduction keeps what is required, if the reductions that it asks for do. -/
theorem Closed.reduceStep (hL : L.Closed E) (hf : L.Kept E f) : L.Kept E (reduceStep f) := by
  intro t ht
  cases t with
  | number x => exact ht
  | var name => exact ht
  | product ts => exact hL.reduceOperation hf .product (ht.members .product)
  | sum ts => exact hL.reduceOperation hf .sum (ht.members .sum)
  | power b e =>
    rw [Term.reduceStep]
    refine (hf b ht.base).bind fun rb hb => ?_
    exact (hf e ht.exponent).bind fun re he => hL.reducePower hf hb he _
  | call c ts =>
    rw [Term.reduceStep]
    have hmapM : Meets (ts.mapM f) (List.Forall₂ (fun _ r => L.In r.term) ts) E :=
      Meets.mapM fun u hu => hf u (ht.inside u hu)
    refine hmapM.bind fun rs hrs => ?_
    refine ⟨?_, fun u hu => ?_⟩
    · have hlen : (rs.map (·.term)).length = ts.length := by
        rw [List.length_map, hrs.length_eq]
      have hcall : L.call c ts.length := ht.here
      rw [← hlen] at hcall
      exact hcall
    · obtain ⟨r, hr, rfl⟩ := List.mem_map.mp hu
      obtain ⟨v, _, hin⟩ := exists_of_forall₂_right hrs hr
      exact hin

/-- Reduction keeps what is required of numbers, variables and calls. -/
theorem Closed.reduce (hL : L.Closed E) (endless : E (.mishap .endless)) : L.Kept E reduce :=
  reduce_meets (D := L.In) (fun _ => endless) fun _ hf => hL.reduceStep hf

end Leaves
end Mathpad.Term
