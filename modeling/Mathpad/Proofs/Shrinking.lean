import Mathpad.Proofs.Faults
import Mathpad.Proofs.Weights

/-!
# Reduction makes no term deeper or heavier

One step of reduction asks only for the reduction of terms that are nearer to being
reduced, and what it makes of a term is compact, no deeper and no heavier. The first
part of that statement is why reduction comes to an end. The second part is what the
first one needs, because a step reduces terms that it has put together from reduced
ones.
-/
set_option autoImplicit false

namespace Mathpad.Term

/-- What reduction makes of a term. -/
structure Shrunk (t : Term) (r : Reduced) : Prop where
  depth_le : r.term.depth ≤ t.depth
  weight_le : r.term.weight ≤ t.weight
  compact : Compact r.term
  number : t.isNumber = true → r.term = t
  rank_eq : r.performed = false → r.term.rank = t.rank

/-- Any fault but the refusal to go on. -/
def Graceful (f : Fault) : Prop := f ≠ .mishap .endless

/-- A fault in arithmetic is no refusal to go on. -/
theorem graceful_of_isMaths {f : Fault} (h : f.IsMaths) : Graceful f := by
  obtain ⟨e, rfl⟩ := h
  intro h
  cases h

/-- Comparing terms never refuses to go on: all that it computes is arithmetic. -/
theorem order_graceful (t u : Term) : Meets (order t u) (fun _ => True) Graceful :=
  (order_isMaths t u).mono (fun _ _ => trivial) fun _ => graceful_of_isMaths

/-- A term that is no deeper and lighter is nearer to being reduced. -/
theorem precedes_of_le {u t : Term} (hd : u.depth ≤ t.depth) (hw : u.weight < t.weight) :
    u.Precedes t := by
  rcases Nat.lt_or_eq_of_le hd with hlt | heq
  · exact Or.inl hlt
  · exact Or.inr ⟨heq, hw⟩

/-- A term in whose place a smaller one was reduced. -/
theorem Shrunk.instead {t u : Term} {r : Reduced} (h : Shrunk u r) (hd : u.depth ≤ t.depth)
    (hw : u.weight ≤ t.weight) (ht : t.isNumber = false) : Shrunk t ⟨r.term, true⟩ where
  depth_le := le_trans h.depth_le hd
  weight_le := le_trans h.weight_le hw
  compact := h.compact
  number hn := by rw [ht] at hn; cases hn
  rank_eq hp := by cases hp

/-- A number in the place of a term. -/
theorem shrunk_number (t : Term) (x : Number) (ht : t.isNumber = false) :
    Shrunk t ⟨.number x, true⟩ where
  depth_le := Nat.zero_le _
  weight_le := twenty_le_weight t
  compact := trivial
  number hn := by rw [ht] at hn; cases hn
  rank_eq hp := by cases hp

theorem isNumber_apply (op : Operation) (ts : List Term) : (op.apply ts).isNumber = false := by
  cases op <;> rfl

/-! ## Members -/

/-- What the members of a sum or a product with the members `ts` have become. -/
structure SmallMembers (op : Operation) (ts members : List Term) : Prop where
  weight_le : weightAll members ≤ weightAll ts
  depth_le : ∀ t ∈ members, t.depth ≤ (op.apply ts).depth
  compact : ∀ t ∈ members, Compact t
  ranks : RanksAscend members
  numbers : ts.all isNumber = true → members.all isNumber = true

/-- A member is nearer to being reduced than its operation. -/
theorem member_precedes {op : Operation} {ts : List Term} {t : Term} (h : t ∈ ts) :
    t.Precedes (op.apply ts) :=
  precedes_of_le (depth_le_apply op h)
    (lt_of_le_of_lt (weight_le_weightAll h) (weightAll_lt_apply op ts))

/-- What the reduced members are spliced in as weighs no more than the members did. -/
theorem weightAll_lifted_le (op : Operation) {ts : List Term} {rs : List Reduced}
    (h : List.Forall₂ Shrunk ts rs) :
    weightAll (rs.flatMap fun r => op.lift r.term) ≤ weightAll ts := by
  induction h with
  | nil => exact le_refl _
  | cons hr _ ih =>
    rw [List.flatMap_cons, weightAll_append, weightAll_cons]
    exact Nat.add_le_add (le_trans (weightAll_lift_le op _) hr.weight_le) ih

/-- Reducing the members of an operation leaves members that are no heavier and no deeper, numbers
in front. -/
theorem reduceMembers_shrinks {f : Term → Outcome Reduced} {op : Operation} {ts : List Term}
    (hf : ∀ u, u.Precedes (op.apply ts) → Meets (f u) (Shrunk u) Graceful) :
    Meets (reduceMembers f op ts) (fun out => SmallMembers op ts out.1) Graceful := by
  have hall : ∀ t ∈ ts,
      Meets (f t) (fun r => Shrunk t r ∧ ∀ u ∈ op.lift r.term, True) Graceful := by
    intro t ht
    exact (hf t (member_precedes ht)).imp fun r hr => ⟨hr, fun _ _ => trivial⟩
  refine (reduceMembers_meets op (P := fun _ => True) (fun t u _ _ => order_graceful t u)
    (fun _ _ => trivial) hall).imp fun out hout => ?_
  obtain ⟨sorted, rs, hred⟩ := hout
  -- sorting and lifting bring in nothing: every reduction is one of a member
  have hfrom : ∀ r ∈ rs, ∃ t ∈ ts, Shrunk t r := by
    intro r hr
    obtain ⟨t, ht, hs⟩ := exists_of_forall₂_right hred.reduced hr
    exact ⟨t, hred.sorted_perm.subset ht, hs⟩
  refine ⟨?_, ?_, ?_, hred.ranksAscend fun t r hr => hr.rank_eq, ?_⟩
  · rw [weightAll_perm hred.members_perm]
    exact le_trans (weightAll_lifted_le op hred.reduced)
      (le_of_eq (weightAll_perm hred.sorted_perm))
  · intro u hu
    obtain ⟨r, hr, hu⟩ := List.mem_flatMap.mp (hred.members_perm.subset hu)
    obtain ⟨t, ht, hs⟩ := hfrom r hr
    exact le_trans (depth_lift_le hu) (le_trans hs.depth_le (depth_le_apply op ht))
  · intro u hu
    obtain ⟨r, hr, hu⟩ := List.mem_flatMap.mp (hred.members_perm.subset hu)
    obtain ⟨t, _, hs⟩ := hfrom r hr
    exact compact_lift hs.compact hu
  · intro hnum
    refine hred.all_isNumber fun r hr => ?_
    obtain ⟨t, ht, hs⟩ := hfrom r hr
    have htn := List.all_eq_true.mp hnum t ht
    rw [hs.number htn]
    exact htn

/-! ## Exponents -/

/-- An exponent inside a term of depth `n`: a number, or a term that counts one level more. -/
def FitsExponent (n : Nat) (e : Term) : Prop := e.isNumber = true ∨ max 1 e.depth + 1 ≤ n

/-- The exponent of a power fits into the depth of the power. -/
theorem fitsExponent_of_power {b e : Term} {n : Nat} (h : (power b e).depth ≤ n) :
    FitsExponent n e := by
  rw [depth_power] at h
  by_cases he : e.isNumber = true
  · exact Or.inl he
  · rw [if_neg he] at h
    exact Or.inr (le_trans (le_max_right _ _) h)

/-- Exponents that are put together count one level less than the term they come from. -/
theorem depth_exponents {n : Nat} (hn : 1 ≤ n) {es : List Term}
    (h : ∀ e ∈ es, FitsExponent n e) (op : Operation) : (op.apply es).depth + 1 ≤ n := by
  by_cases hall : es.all isNumber = true
  · rw [depth_apply, if_pos hall]
    exact hn
  · obtain ⟨e, he, hne⟩ : ∃ e ∈ es, e.isNumber = false := by simpa using hall
    -- an exponent that is no number counts two levels at least
    have htwo : 2 ≤ n := by
      rcases h e he with hnum | hle
      · rw [hnum] at hne
        cases hne
      · have hmax := le_max_left 1 e.depth
        omega
    have hle : (op.apply es).depth ≤ n - 1 := by
      refine depth_apply_le op (fun e' he' => ?_) (Or.inr (by omega))
      rcases h e' he' with hnum | hle
      · rw [depth_of_isNumber hnum]
        exact Nat.zero_le _
      · have hmax := le_max_right 1 e'.depth
        omega
    omega

/-- A power whose exponent was put together in this way. -/
theorem depth_power_le {b x : Term} {n : Nat} (hb : b.depth ≤ n) (hx : Compact x)
    (hd : x.depth + 1 ≤ n) : (power b x).depth ≤ n := by
  rw [depth_power]
  by_cases hnum : x.isNumber = true
  · rw [if_pos hnum]
    exact max_le hb (by omega)
  · rw [if_neg hnum]
    have hone := hx.one_le_depth (Bool.eq_false_iff.mpr hnum)
    exact max_le hb (by omega)

/-! ## Merging like members -/

section Merging

variable {ι : Type} {whole : ι → Term} {n : Nat}

/-- What a group of like members makes weighs less than they do. -/
def LighterThan (whole : ι → Term) (n : Nat) (run : List ι) (out : Option Term) : Prop :=
  weightAll out.toList < weightAll (run.map whole) ∧ ∀ t ∈ out, t.depth ≤ n

/-- Where each group is replaced by something lighter, or stays, and one group is replaced,
everything together is lighter. -/
theorem RunsMerged.lighter {items : List ι} {combined : List Term}
    (h : RunsMerged whole (LighterThan whole n) items (some combined)) :
    weightAll combined < weightAll (items.map whole) := by
  obtain ⟨runs, outs, hperm, hlong, hout, rfl⟩ := h
  rw [← weightAll_perm (hperm.map whole)]
  clear hperm
  -- a group of one keeps its weight and a longer one loses some, so the induction needs both
  -- bounds: with a longer group to come, what there is so far may be just as heavy
  have hsum : weightAll (outs.filterMap id) ≤ weightAll (runs.flatten.map whole) ∧
      ((∃ run ∈ runs, 1 < run.length) →
        weightAll (outs.filterMap id) < weightAll (runs.flatten.map whole)) := by
    clear hlong
    induction hout with
    | nil => simp
    | @cons run out runs outs hhead _ ih =>
      obtain ⟨hle, hlt⟩ := ih
      have hfilter : (out :: outs).filterMap id = out.toList ++ outs.filterMap id := by
        cases out <;> rfl
      rw [hfilter, weightAll_append, List.flatten_cons, List.map_append, weightAll_append]
      rcases hhead with ⟨only, hrun, hout⟩ | ⟨_, hw, _⟩
      · have hsingle : weightAll out.toList = weightAll (run.map whole) := by rw [hrun, hout]; rfl
        refine ⟨by omega, fun hlong => ?_⟩
        obtain ⟨run', hr', hlen⟩ := hlong
        rcases List.mem_cons.mp hr' with hr' | hr'
        · rw [hr', hrun] at hlen
          simp at hlen
        · have hstrict := hlt ⟨run', hr', hlen⟩
          omega
      · exact ⟨by omega, fun _ => by omega⟩
  exact hsum.2 hlong

/-- Two or more items that weigh `n` at least weigh twice that much together. -/
theorem two_mul_le_weightAll (whole : ι → Term) {items : List ι} {first : ι} {more : List ι}
    (hmore : more ≠ []) (hsub : (first :: more).Subperm items) {w : Nat}
    (hw : ∀ a ∈ first :: more, w ≤ (whole a).weight) :
    2 * w ≤ weightAll ((first :: more).map whole) ∧
      weightAll ((first :: more).map whole) ≤ weightAll (items.map whole) := by
  constructor
  · cases more with
    | nil => exact absurd rfl hmore
    | cons second more =>
      have hfirst := hw first (by simp)
      have hsecond := hw second (by simp)
      simp only [List.map_cons, weightAll_cons]
      omega
  · obtain ⟨vs, hperm, hsublist⟩ := hsub
    rw [← weightAll_perm (hperm.map whole)]
    exact weightAll_subperm (hsublist.map whole).subperm

end Merging

/-- What is needed of a member of a sum or a product to merge it with others. -/
structure Mergeable (n : Nat) (t : Term) : Prop where
  depth_le : t.depth ≤ n
  compact : Compact t
  isNumber : t.isNumber = false

theorem Mergeable.one_le {n : Nat} {t : Term} (h : Mergeable n t) : 1 ≤ n :=
  le_trans (h.compact.one_le_depth h.isNumber) h.depth_le

/-! ### Factors -/

/-- A factor of a term of depth `n` as base and exponent. -/
structure SmallFactor (n : Nat) (a : Factor) : Prop where
  base_compact : Compact a.base
  base_depth : a.base.depth ≤ n
  base_weight : a.base.weight ≤ a.whole.weight
  exponent : FitsExponent n a.exponent
  one_le : 1 ≤ n

/-- A member that can be merged is a factor that can be. -/
theorem Mergeable.smallFactor {n : Nat} {t : Term} (h : Mergeable n t) :
    SmallFactor n (Factor.ofTerm t) := by
  have hone := h.one_le
  cases t with
  | power b e =>
    have hd := h.depth_le
    refine ⟨h.compact.2, le_trans ?_ hd, ?_, fitsExponent_of_power hd, hone⟩
    · rw [depth_power]
      exact le_max_left _ _
    · change b.weight ≤ (power b e).weight
      rw [weight_power]
      have hgt := powerWeight_gt e (twenty_le_weight b)
      omega
  | _ => exact ⟨h.compact, h.depth_le, le_refl _, Or.inl rfl, hone⟩

/-- Merging factors of one base makes them lighter. The reductions that this asks for are of terms
nearer to being reduced than the product that the factors stand in. -/
theorem mergeFactors_shrinks {f : Term → Outcome Reduced} {t : Term} {items : List Factor}
    (hf : ∀ u, u.Precedes t → Meets (f u) (Shrunk u) Graceful)
    (hitems : ∀ a ∈ items, SmallFactor t.depth a)
    (hlight : weightAll (items.map Factor.whole) < t.weight) {first : Factor}
    {more : List Factor} (hmore : more ≠ []) (hsub : (first :: more).Subperm items)
    (htied : ∀ a ∈ more, Tied first.base a.base) :
    Meets (mergeFactors f first (first :: more))
      (LighterThan Factor.whole t.depth (first :: more)) Graceful := by
  have hsmall : ∀ a ∈ first :: more, SmallFactor t.depth a := fun a ha =>
    hitems a (hsub.subset ha)
  have hfirst := hsmall first (by simp)
  -- the bases compare equal, so they have one weight
  have hweight : ∀ a ∈ first :: more, first.base.weight ≤ a.whole.weight := by
    intro a ha
    rcases List.mem_cons.mp ha with rfl | hmem
    · exact hfirst.base_weight
    · have hsame := (htied a hmem).weight_eq hfirst.base_compact (hsmall a ha).base_compact
      rw [hsame]
      exact (hsmall a ha).base_weight
  obtain ⟨htwice, hrun⟩ := two_mul_le_weightAll Factor.whole hmore hsub hweight
  have hbase := twenty_le_weight first.base
  -- the exponents are reduced one level further in
  have hexps : (sum ((first :: more).map (·.exponent))).depth + 1 ≤ t.depth := by
    refine depth_exponents hfirst.one_le (fun e he => ?_) .sum
    obtain ⟨a, ha, rfl⟩ := List.mem_map.mp he
    exact (hsmall a ha).exponent
  unfold mergeFactors
  refine (hf _ (Or.inl (by omega))).bind fun x hx => ?_
  have hxd := hx.depth_le
  have hpowd : (power first.base x.term).depth ≤ t.depth :=
    depth_power_le hfirst.base_depth hx.compact (by omega)
  -- one power is lighter than two factors, whatever its exponent is
  have hpoww : (power first.base x.term).weight < 2 * first.base.weight := by
    rw [weight_power]
    exact powerWeight_lt _ (by omega)
  refine (hf _ (precedes_of_le hpowd (by omega))).bind fun p hp => ?_
  have hpw := hp.weight_le
  refine ⟨?_, fun u hu => ?_⟩
  · change weightAll [p.term] < _
    rw [weightAll_cons, weightAll_nil]
    omega
  · have hup : p.term = u := by simpa using hu
    rw [← hup]
    exact le_trans hp.depth_le hpowd

/-! ### Multiples -/

/-- A member of a sum of depth `n` as coefficient and term. -/
structure SmallMultiple (n : Nat) (a : Multiple) : Prop where
  mergeable : Mergeable n a.term
  weight_le : a.term.weight ≤ a.whole.weight

/-- A member that can be merged is a multiple that can be. -/
theorem Mergeable.smallMultiple {n : Nat} {t : Term} (h : Mergeable n t) :
    SmallMultiple n (Multiple.ofTerm t) := by
  unfold Multiple.ofTerm
  split
  · rename_i k u
    obtain ⟨hall, hk, hu, _⟩ := h.compact
    have hnum : u.isNumber = false := by simpa using hall
    refine ⟨⟨le_trans ?_ h.depth_le, hu, hnum⟩, ?_⟩
    · exact depth_le_apply .product (by simp)
    · have hmem : u ∈ [.number k, u] := by simp
      exact le_of_lt (lt_of_le_of_lt (weight_le_weightAll hmem) (weightAll_lt_apply .product _))
  · rename_i k us _
    obtain ⟨hall, hk, hus⟩ := h.compact
    have hnum : us.all Term.isNumber = false := by simpa using hall
    refine ⟨⟨le_trans ?_ h.depth_le, ⟨hnum, hus⟩, rfl⟩, ?_⟩
    · refine depth_apply_le .product (fun u hu => ?_) (Or.inr ?_)
      · exact depth_le_apply .product (by simp [hu])
      · exact h.compact.one_le_depth rfl
    · exact weight_apply_le .product (by simp)
  · exact ⟨h, le_refl _⟩

/-- A multiple of a term weighs less than twice the term, and is no deeper than the sum. -/
theorem multiple?_lighter {n : Nat} {t : Term} (h : Mergeable n t) (k : Number) :
    weightAll (multiple? k t).toList < 2 * t.weight ∧
      ∀ u ∈ multiple? k t, u.depth ≤ n := by
  -- a coefficient adds 24 to a term of weight 25 or more, which is less than a second copy
  have hw := h.compact.weight_ge h.isNumber
  unfold multiple?
  by_cases hzero : k.isZero = true
  · rw [if_pos hzero]
    refine ⟨?_, by simp⟩
    change 0 < 2 * t.weight
    omega
  · rw [if_neg hzero]
    by_cases hone : k.isOne = true
    · rw [if_pos hone]
      refine ⟨?_, by simpa using h.depth_le⟩
      change t.weight + 0 < 2 * t.weight
      omega
    · rw [if_neg hone]
      have hlift := Operation.factors_eq_lift t
      have hle := weightAll_lift_le .product t
      refine ⟨?_, fun u hu => ?_⟩
      · rw [hlift]
        change max 20 (20 + weightAll (Operation.product.lift t) + 4) + 0 < 2 * t.weight
        omega
      · have hu' : .product (.number k :: t.factors) = u := by simpa using hu
        rw [← hu']
        refine depth_apply_le .product (fun v hv => ?_) (Or.inr h.one_le)
        rcases List.mem_cons.mp hv with rfl | hv
        · exact Nat.zero_le _
        · rw [hlift] at hv
          exact le_trans (depth_lift_le hv) h.depth_le

/-- Merging multiples of one term makes them lighter. -/
theorem mergeMultiples_shrinks {n : Nat} {items : List Multiple}
    (hitems : ∀ a ∈ items, SmallMultiple n a) {first : Multiple} {more : List Multiple}
    (hmore : more ≠ []) (hsub : (first :: more).Subperm items)
    (htied : ∀ a ∈ more, Tied first.term a.term) :
    Meets (mergeMultiples first (first :: more))
      (LighterThan Multiple.whole n (first :: more)) Graceful := by
  have hsmall : ∀ a ∈ first :: more, SmallMultiple n a := fun a ha => hitems a (hsub.subset ha)
  have hfirst := hsmall first (by simp)
  -- the terms compare equal, so they have one weight
  have hweight : ∀ a ∈ first :: more, first.term.weight ≤ a.whole.weight := by
    intro a ha
    rcases List.mem_cons.mp ha with rfl | hmem
    · exact hfirst.weight_le
    · have hsame := (htied a hmem).weight_eq hfirst.mergeable.compact
        (hsmall a ha).mergeable.compact
      rw [hsame]
      exact (hsmall a ha).weight_le
  obtain ⟨htwice, _⟩ := two_mul_le_weightAll Multiple.whole hmore hsub hweight
  unfold mergeMultiples
  have hloop : Meets (((first :: more).map (·.coefficient)).foldlM Number.add Number.zero)
      (fun _ => True) Graceful :=
    (total_meets .sum _ Number.zero).mono (fun _ _ => trivial) fun _ => graceful_of_isMaths
  refine hloop.bind fun k _ => ?_
  obtain ⟨hlight, hdepth⟩ := multiple?_lighter hfirst.mergeable k
  exact ⟨by omega, hdepth⟩

/-- Merging like members, if there are any, makes them lighter together. -/
theorem mergeLike_shrinks {f : Term → Outcome Reduced} {t : Term}
    (hf : ∀ u, u.Precedes t → Meets (f u) (Shrunk u) Graceful) {rest : List Term}
    (hrest : ∀ u ∈ rest, Mergeable t.depth u) (hlight : weightAll rest < t.weight)
    (op : Operation) :
    Meets (mergeLike f op rest) (fun out => ∀ combined, out = some combined →
      weightAll combined < weightAll rest ∧ ∀ u ∈ combined, u.depth ≤ t.depth) Graceful := by
  cases op with
  | product =>
    -- taken apart and put together again the members are `rest`, so the weights are those of `rest`
    have hwhole := map_whole Factor.ofTerm_whole rest
    have hitems : ∀ a ∈ rest.map Factor.ofTerm, SmallFactor t.depth a := by
      intro a ha
      obtain ⟨u, hu, rfl⟩ := List.mem_map.mp ha
      exact (hrest u hu).smallFactor
    refine (mergeRuns_meets (P := fun _ => True) (Q := LighterThan Factor.whole t.depth)
      (fun a b _ _ => order_graceful _ _) (fun _ _ => trivial)
      fun first more hmore hsub htied => ?_).imp fun out hout combined hc => ?_
    · exact mergeFactors_shrinks hf hitems (by rw [hwhole]; exact hlight) hmore hsub htied
    · rw [hc] at hout
      have hlighter := hout.lighter
      rw [hwhole] at hlighter
      have hdepth := forall_whole Factor.ofTerm_whole fun u hu => (hrest u hu).depth_le
      exact ⟨hlighter, hout.forall_mem hdepth fun run out hq => hq.2⟩
  | sum =>
    have hwhole := map_whole Multiple.ofTerm_whole rest
    have hitems : ∀ a ∈ rest.map Multiple.ofTerm, SmallMultiple t.depth a := by
      intro a ha
      obtain ⟨u, hu, rfl⟩ := List.mem_map.mp ha
      exact (hrest u hu).smallMultiple
    refine (mergeRuns_meets (P := fun _ => True) (Q := LighterThan Multiple.whole t.depth)
      (fun a b _ _ => order_graceful _ _) (fun _ _ => trivial)
      fun first more hmore hsub htied => ?_).imp fun out hout combined hc => ?_
    · exact mergeMultiples_shrinks hitems hmore hsub htied
    · rw [hc] at hout
      have hlighter := hout.lighter
      rw [hwhole] at hlighter
      have hdepth := forall_whole Multiple.ofTerm_whole fun u hu => (hrest u hu).depth_le
      exact ⟨hlighter, hout.forall_mem hdepth fun run out hq => hq.2⟩

end Mathpad.Term
