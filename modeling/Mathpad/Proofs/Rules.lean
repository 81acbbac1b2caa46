import Mathlib.Data.List.Perm.Subperm
import Mathpad.Proofs.TermOrder
import Mathpad.Term.Reduce

/-!
# What the steps of reduction do

For each part of the step there is one statement of what it does when it succeeds and
when it fails, given what the reductions that it asks for do. The statements say which
terms are reduced and how the results are put together; what is true of values, sizes
or shapes is left to the places where it is used.

At the end stands the induction over reduction itself.
-/
set_option autoImplicit false

namespace Mathpad

namespace Term

/-! ## Sums and products alike -/

/-- Induction over a term with one case for sums and products. -/
@[elab_as_elim]
theorem operation_induction {P : Term → Prop} (number : ∀ x, P (.number x))
    (var : ∀ name, P (.var name))
    (operation : ∀ (op : Operation) ts, (∀ t ∈ ts, P t) → P (op.apply ts))
    (power : ∀ b e, P b → P e → P (.power b e))
    (call : ∀ f ts, (∀ t ∈ ts, P t) → P (.call f ts)) (t : Term) : P t :=
  parts_induction number var (operation .product) power (operation .sum) call t

theorem allNumbers_apply (op : Operation) {P : Number → Prop} {ts : List Term} :
    AllNumbers P (op.apply ts) ↔ ∀ t ∈ ts, AllNumbers P t := by
  cases op <;> exact allNumbersIn_iff

/-- What is made of members is the neutral number, the only member, or the operation applied to
them. -/
theorem ofMembers_cases {Q : Term → Prop} {op : Operation} {us : List Term} {changed : Bool}
    (none : Q (number op.neutral)) (one : ∀ u ∈ us, Q u)
    (many : 2 ≤ us.length → Q (op.apply us)) : Q (ofMembers op us changed).term := by
  match us, one, many with
  | [], _, _ => exact none
  | [u], one, _ => exact one u (by simp)
  | u :: v :: us, _, many => exact many (by simp)

theorem reduceStep_apply (f : Term → Outcome Reduced) (op : Operation) (ts : List Term) :
    reduceStep f (op.apply ts) = reduceOperation f op ts := by
  cases op <;> rfl

/-! ## Reading a list in the order of kinds -/

@[simp] theorem isNumber_number (x : Number) : isNumber (.number x) = true := rfl

theorem isNumber_iff {t : Term} : t.isNumber = true ↔ ∃ x, t = .number x := by
  cases t <;> simp [isNumber, number?]

/-- Numbers come before everything else, as they are of the lowest kind. -/
theorem isNumber_iff_rank {t : Term} : t.isNumber = true ↔ t.rank ≤ 1 := by
  cases t <;> simp [isNumber, number?, rank]

/-- The kinds come in their order. -/
def RanksAscend (ts : List Term) : Prop := ts.Pairwise fun t u => t.rank ≤ u.rank

/-- Terms that are in order come kind by kind. -/
theorem ranksAscend_of_isChain {ts : List Term} (h : ts.IsChain (InOrder order)) :
    RanksAscend ts := by
  have hranks : ts.IsChain fun t u => t.rank ≤ u.rank := by
    refine List.IsChain.imp ?_ h
    intro t u htu
    exact rank_le_of_inOrder htu
  have : Trans (fun t u : Term => t.rank ≤ u.rank) (fun t u : Term => t.rank ≤ u.rank)
      (fun t u : Term => t.rank ≤ u.rank) := ⟨fun h h' => Nat.le_trans h h'⟩
  exact List.isChain_iff_pairwise.mp hranks

theorem ranksAscend_of_sortBy {ts us : List Term} (h : sortBy order ts = .ok us) :
    RanksAscend us :=
  ranksAscend_of_isChain (sortBy_isChain order_swaps h)

/-- Behind the numbers at the front there are none. -/
theorem isNumber_of_mem_rest {ts : List Term} (h : RanksAscend ts) {t : Term}
    (ht : t ∈ (leadingNumbers ts).2) : t.isNumber = false := by
  induction ts with
  | nil => simp [leadingNumbers] at ht
  | cons u us ih =>
    have htail := (List.pairwise_cons.mp h).2
    by_cases hu : u.isNumber = true
    · refine ih htail ?_
      simpa [leadingNumbers, hu] using ht
    · have hmem : t ∈ u :: us := by simpa [leadingNumbers, hu] using ht
      -- the first member that is no number has a higher rank than any number
      have hrank : ¬u.rank ≤ 1 := fun hle => hu (isNumber_iff_rank.mpr hle)
      rw [Bool.eq_false_iff]
      intro htn
      have htr := isNumber_iff_rank.mp htn
      rcases List.mem_cons.mp hmem with rfl | hmem
      · exact hrank htr
      · have hle := (List.pairwise_cons.mp h).1 t hmem
        exact hrank (Nat.le_trans hle htr)

/-- Behind the numbers in front there are no more numbers, as the kinds come in their order. -/
theorem isNumber_behind {ts rest : List Term} {front : List Number} (h : RanksAscend ts)
    (hlead : leadingNumbers ts = (front, rest)) : ∀ t ∈ rest, t.isNumber = false := by
  intro t ht
  refine isNumber_of_mem_rest h ?_
  rw [hlead]
  exact ht

/-- The numbers at the front and what is behind them make up the list. -/
theorem leadingNumbers_append (ts : List Term) :
    (leadingNumbers ts).1.map .number ++ (leadingNumbers ts).2 = ts := by
  induction ts with
  | nil => rfl
  | cons t ts ih =>
    by_cases ht : t.isNumber = true
    · obtain ⟨x, rfl⟩ := isNumber_iff.mp ht
      simp only [leadingNumbers] at ih ⊢
      rw [List.takeWhile_cons_of_pos ht, List.dropWhile_cons_of_pos ht]
      simp only [List.filterMap_cons, number?, List.map_cons, List.cons_append]
      rw [ih]
    · simp [leadingNumbers, ht]

/-- Numbers with other terms behind them. -/
theorem leadingNumbers_numbers_append (xs : List Number) {rest : List Term}
    (hrest : ∀ t ∈ rest, t.isNumber = false) :
    leadingNumbers (xs.map number ++ rest) = (xs, rest) := by
  induction xs with
  | nil =>
    cases rest with
    | nil => rfl
    | cons t ts => simp [leadingNumbers, hrest t (by simp)]
  | cons x xs ih =>
    unfold leadingNumbers at ih ⊢
    obtain ⟨hfront, hbehind⟩ := Prod.mk.inj ih
    rw [List.map_cons, List.cons_append, List.takeWhile_cons_of_pos (isNumber_number x),
      List.dropWhile_cons_of_pos (isNumber_number x), hbehind, List.filterMap_cons, hfront]
    rfl

/-- What is true of the numbers and of the terms behind them is true of all of them. -/
theorem forall_numbers_append {P : Term → Prop} {xs : List Number} {ts : List Term}
    (hxs : ∀ x ∈ xs, P (number x)) (hts : ∀ t ∈ ts, P t) : ∀ t ∈ xs.map number ++ ts, P t :=
  List.forall_mem_append.mpr ⟨List.forall_mem_map.mpr hxs, hts⟩

theorem leadingNumbers_map (xs : List Number) : leadingNumbers (xs.map number) = (xs, []) := by
  have hnone : ∀ t ∈ ([] : List Term), t.isNumber = false := by simp
  have happend := leadingNumbers_numbers_append xs hnone
  rw [List.append_nil] at happend
  exact happend

end Term

/-! ## Members -/

/-- The members of a term that has this operation outermost, and otherwise the term. -/
def Operation.lift (op : Operation) (t : Term) : List Term := (op.members? t).getD [t]

/-- A term is spliced into an operation as itself, or as its members if it has the operation
outermost. -/
theorem Operation.lift_cases (op : Operation) (t : Term) :
    op.lift t = [t] ∨ ∃ ts, t = op.apply ts ∧ op.lift t = ts := by
  cases op <;> cases t <;> simp [lift, members?, apply]

/-- What a term is spliced in as is the term or one of its members. -/
theorem Operation.mem_lift {op : Operation} {t u : Term} (h : u ∈ op.lift t) :
    u = t ∨ ∃ ts, t = op.apply ts ∧ u ∈ ts := by
  rcases op.lift_cases t with hlift | ⟨ts, ht, hlift⟩
  · rw [hlift] at h
    exact Or.inl (List.mem_singleton.mp h)
  · rw [hlift] at h
    exact Or.inr ⟨ts, ht, h⟩

/-- The factors of a term are what it is spliced into a product as. -/
theorem Operation.factors_eq_lift (t : Term) : t.factors = Operation.product.lift t := by
  cases t <;> rfl

namespace Term

variable {E : Fault → Prop} {op : Operation} {f : Term → Outcome Reduced}

/-- What becomes of the members of a sum or a product: they are sorted and reduced, and if
that changed anything what is left is sorted again. -/
structure MembersReduced (Q : Term → Reduced → Prop) (op : Operation) (ts sorted : List Term)
    (rs : List Reduced) (members : List Term) (changed : Bool) : Prop where
  sorted_eq : sortBy order ts = .ok sorted
  reduced : List.Forall₂ Q sorted rs
  changed_eq : changed = rs.any fun r => (op.members? r.term).isSome || r.performed
  again : changed = true → sortBy order (rs.flatMap fun r => op.lift r.term) = .ok members
  still : changed = false → members = rs.flatMap fun r => op.lift r.term

/-- The members of an operation can be sorted and reduced, if the comparison never fails on terms
with a property that they have and keep. -/
theorem reduceMembers_meets (op : Operation) {Q : Term → Reduced → Prop} {P : Term → Prop}
    {ts : List Term}
    (hcmp : ∀ t u, P t → P u → Meets (order t u) (fun _ => True) E) (hts : ∀ t ∈ ts, P t)
    (hf : ∀ t ∈ ts, Meets (f t) (fun r => Q t r ∧ ∀ u ∈ op.lift r.term, P u) E) :
    Meets (reduceMembers f op ts)
      (fun out => ∃ sorted rs, MembersReduced Q op ts sorted rs out.1 out.2) E := by
  unfold reduceMembers
  have hsort : Meets (sortBy order ts) (fun sorted => sorted.Perm ts) E :=
    sortBy_meets fun t ht u hu => hcmp t u (hts t ht) (hts u hu)
  refine hsort.eq_and.bind fun sorted hsorted => ?_
  have hall : ∀ t ∈ sorted, Meets (f t) (fun r => Q t r ∧ ∀ u ∈ op.lift r.term, P u) E :=
    fun t ht => hf t (hsorted.2.subset ht)
  refine (Meets.mapM hall).bind fun rs hrs => ?_
  have hQ : List.Forall₂ Q sorted rs := hrs.imp fun t r h => h.1
  have hP : ∀ u ∈ rs.flatMap (fun r => op.lift r.term), P u := by
    intro u hu
    obtain ⟨r, hr, hu⟩ := List.mem_flatMap.mp hu
    obtain ⟨t, _, h⟩ := exists_of_forall₂_right hrs hr
    exact h.2 u hu
  -- what was lifted or changed may be out of order
  by_cases hchanged : (rs.any fun r => (op.members? r.term).isSome || r.performed) = true
  · simp only [hchanged, if_true]
    have hagain : Meets (sortBy order (rs.flatMap fun r => op.lift r.term))
        (fun _ => True) E :=
      (sortBy_meets fun t ht u hu => hcmp t u (hP t ht) (hP u hu)).imp fun _ _ => trivial
    refine hagain.eq_and.bind fun members hmembers => ?_
    exact ⟨sorted, rs, hsorted.1, hQ, hchanged.symm, fun _ => hmembers.1, by simp⟩
  · simp only [hchanged]
    exact ⟨sorted, rs, hsorted.1, hQ, (Bool.eq_false_iff.mpr hchanged).symm, by simp,
      fun _ => rfl⟩

section Members

variable {Q : Term → Reduced → Prop} {ts sorted members : List Term} {rs : List Reduced}
  {changed : Bool}

theorem MembersReduced.sorted_perm (h : MembersReduced Q op ts sorted rs members changed) :
    sorted.Perm ts :=
  sortBy_perm h.sorted_eq

/-- Whether or not they are sorted again, the members are what the reduced ones are spliced in as.
-/
theorem MembersReduced.members_perm (h : MembersReduced Q op ts sorted rs members changed) :
    members.Perm (rs.flatMap fun r => op.lift r.term) := by
  cases changed with
  | true => exact sortBy_perm (h.again rfl)
  | false => rw [h.still rfl]

/-- Where nothing changed, each member became one of the same kind. -/
theorem MembersReduced.still_map (h : MembersReduced Q op ts sorted rs members changed)
    (hstill : changed = false) :
    members = rs.map (·.term) ∧ ∀ r ∈ rs, op.members? r.term = none ∧ r.performed = false := by
  have hchanged := h.changed_eq
  rw [hstill, eq_comm, List.any_eq_false] at hchanged
  have hnone : ∀ r ∈ rs, op.members? r.term = none ∧ r.performed = false := by
    intro r hr
    simpa using hchanged r hr
  refine ⟨?_, hnone⟩
  rw [h.still hstill, List.flatMap_def]
  have hlift : rs.map (fun r => op.lift r.term) = rs.map fun r => [r.term] := by
    refine List.map_congr_left fun r hr => ?_
    unfold Operation.lift
    rw [(hnone r hr).1]
    rfl
  rw [hlift, ← List.flatMap_def]
  exact List.flatMap_pure_eq_map (fun r : Reduced => r.term) rs

/-- The members come in the order of their kinds, since reducing a term without doing
anything to it leaves its kind. -/
theorem MembersReduced.ranksAscend (h : MembersReduced Q op ts sorted rs members changed)
    (hQ : ∀ t r, Q t r → r.performed = false → r.term.rank = t.rank) : RanksAscend members := by
  cases changed with
  | true => exact ranksAscend_of_sortBy (h.again rfl)
  | false =>
    obtain ⟨hmap, hnone⟩ := h.still_map rfl
    -- unchanged members are not sorted again, but each has the kind that it had when they were
    have hsame : rs.map (fun r => r.term.rank) = sorted.map rank := by
      have hreduced := h.reduced
      clear h hmap
      induction hreduced with
      | nil => rfl
      | cons hq _ ih =>
        rw [List.map_cons, List.map_cons, ih fun r hr => hnone r (by simp [hr]),
          hQ _ _ hq (hnone _ (by simp)).2]
    have hsorted := ranksAscend_of_sortBy h.sorted_eq
    unfold RanksAscend at hsorted ⊢
    rw [hmap]
    have hpair : (sorted.map rank).Pairwise (· ≤ ·) := List.pairwise_map.mpr hsorted
    rw [← hsame] at hpair
    exact List.pairwise_map.mpr (List.pairwise_map.mp hpair)

/-- If every reduced term is a number, so is every member. -/
theorem MembersReduced.all_isNumber (h : MembersReduced Q op ts sorted rs members changed)
    (hrs : ∀ r ∈ rs, r.term.isNumber = true) : members.all isNumber = true := by
  rw [List.all_eq_true]
  intro t ht
  obtain ⟨r, hr, ht⟩ := List.mem_flatMap.mp (h.members_perm.subset ht)
  obtain ⟨x, hx⟩ := isNumber_iff.mp (hrs r hr)
  rw [hx] at ht
  have htx : t = .number x := by cases op <;> simpa [Operation.lift, Operation.members?] using ht
  rw [htx]
  rfl

end Members

/-! ## Like members -/

section Runs

variable {ι : Type} {key whole : ι → Term} {merge : ι → List ι → Outcome (Option Term)}

/-- What becomes of one group of items: one that stands alone stays, and several are merged. -/
def RunMerged (whole : ι → Term) (Q : List ι → Option Term → Prop) (run : List ι)
    (out : Option Term) : Prop :=
  (∃ only, run = [only] ∧ out = some (whole only)) ∨ (1 < run.length ∧ Q run out)

/-- Nothing is merged if no two items are alike, and otherwise each group of like items is. -/
def RunsMerged (whole : ι → Term) (Q : List ι → Option Term → Prop) (items : List ι) :
    Option (List Term) → Prop
  | none => True
  | some combined => ∃ runs outs, runs.flatten.Perm items ∧ (∃ run ∈ runs, 1 < run.length) ∧
      List.Forall₂ (RunMerged whole Q) runs outs ∧ combined = outs.filterMap id

/-- What is true of items that stand alone and of what groups are merged into is true of
everything after merging. -/
theorem RunsMerged.forall_mem {Q : List ι → Option Term → Prop} {P : Term → Prop}
    {items : List ι} {combined : List Term} (h : RunsMerged whole Q items (some combined))
    (hitems : ∀ a ∈ items, P (whole a)) (hQ : ∀ run out, Q run out → ∀ t ∈ out, P t) :
    ∀ t ∈ combined, P t := by
  obtain ⟨runs, outs, hperm, _, hout, rfl⟩ := h
  intro t ht
  have hsome : some t ∈ outs := by simpa using ht
  obtain ⟨run, hrun, hmerged⟩ := exists_of_forall₂_right hout hsome
  rcases hmerged with ⟨only, honly, heq⟩ | ⟨_, hq⟩
  · rw [Option.some.inj heq]
    refine hitems only (hperm.subset (List.mem_flatten.mpr ⟨run, hrun, ?_⟩))
    simp [honly]
  · exact hQ run (some t) hq t rfl

/-- The groups of like items are merged one by one. What is merged are several items of one key,
found among those there are. -/
theorem mergeRuns_meets {P : ι → Prop} {Q : List ι → Option Term → Prop} {items : List ι}
    (hcmp : ∀ a b, P a → P b → Meets (order (key a) (key b)) (fun _ => True) E)
    (hitems : ∀ a ∈ items, P a)
    (hmerge : ∀ first more, more ≠ [] → (first :: more).Subperm items →
      (∀ a ∈ more, Tied (key first) (key a)) →
      Meets (merge first (first :: more)) (Q (first :: more)) E) :
    Meets (mergeRuns key whole merge items) (RunsMerged whole Q items) E := by
  unfold mergeRuns
  have hsort : Meets (sortBy (fun a b => (key a).order (key b)) items)
      (fun sorted => sorted.Perm items) E :=
    sortBy_meets fun a ha b hb => hcmp a b (hitems a ha) (hitems b hb)
  refine hsort.bind fun sorted hsorted => ?_
  have hmem : ∀ a ∈ sorted, a ∈ items := fun a ha => hsorted.subset ha
  have hcut : Meets (runsBy (fun a b => (key a).order (key b)) sorted)
      (fun runs => runs.flatten = sorted ∧
        ∀ run ∈ runs, IsRun (fun a b => (key a).order (key b)) run) E :=
    runsBy_meets fun a ha b hb => hcmp a b (hitems a (hmem a ha)) (hitems b (hmem b hb))
  refine hcut.bind fun runs hruns => ?_
  obtain ⟨hflat, hrun⟩ := hruns
  -- a group is cut out of the sorted items
  have hin : ∀ run ∈ runs, run.Subperm items := fun run hr => by
    have hsub : run.Sublist sorted := hflat ▸ List.sublist_flatten_of_mem hr
    exact hsub.subperm.trans hsorted.subperm
  refine (Meets.mapM (Q := RunMerged whole Q) fun run hr => ?_).bind fun outs houts => ?_
  · have htied := hrun run hr
    cases run with
    | nil => exact absurd htied (by simp [IsRun])
    | cons first more =>
      cases more with
      | nil => exact Or.inl ⟨first, rfl, rfl⟩
      | cons second more =>
        refine (hmerge first (second :: more) (by simp) (hin _ hr) htied).imp fun out hq => ?_
        exact Or.inr ⟨by simp, hq⟩
  · rw [meets_pure]
    by_cases hany : runs.any (1 < ·.length)
    · rw [if_pos hany]
      obtain ⟨run, hr, hlong⟩ := List.any_eq_true.mp hany
      refine ⟨runs, outs, by rw [hflat]; exact hsorted, ⟨run, hr, ?_⟩, houts, rfl⟩
      simpa using hlong
    · rw [if_neg hany]
      exact trivial

/-- Terms that were taken apart are whole again. -/
theorem map_whole {split : Term → ι} (hwhole : ∀ t, whole (split t) = t) (ts : List Term) :
    (ts.map split).map whole = ts := by
  rw [List.map_map]
  exact List.map_id'' hwhole ts

/-- What is true of terms is true of them after they were taken apart. -/
theorem forall_whole {split : Term → ι} (hwhole : ∀ t, whole (split t) = t) {P : Term → Prop}
    {ts : List Term} (h : ∀ t ∈ ts, P t) : ∀ a ∈ ts.map split, P (whole a) := by
  intro a ha
  obtain ⟨t, ht, rfl⟩ := List.mem_map.mp ha
  rw [hwhole]
  exact h t ht

end Runs

theorem Factor.ofTerm_whole (t : Term) : (Factor.ofTerm t).whole = t := by
  cases t <;> rfl

theorem Multiple.ofTerm_whole (t : Term) : (Multiple.ofTerm t).whole = t := by
  unfold Multiple.ofTerm
  split <;> rfl

/-! ## Sums and products -/

/-- The rule for sums and products, put together from its parts. The reduced members are
some numbers with the rest behind them; the numbers are merged first, then what is alike
in the rest, and if there was anything alike, what comes out is reduced again. -/
theorem reduceOperation_meets {M : List Term → Bool → Prop} {Q : Reduced → Prop} {ts : List Term}
    (hmembers : Meets (reduceMembers f op ts) (fun out => M out.1 out.2) E)
    (habsorbed : ∀ numbers rest changed, M (numbers.map number ++ rest) changed →
      leadingNumbers (numbers.map number ++ rest) = (numbers, rest) →
      numbers.any op.absorbs = true → Q ⟨.number Number.zero, true⟩)
    (hmerged : ∀ numbers rest changed, M (numbers.map number ++ rest) changed →
      leadingNumbers (numbers.map number ++ rest) = (numbers, rest) →
      numbers.any op.absorbs = false →
      Meets (mergeNumbers op numbers rest.isEmpty) (fun merged =>
        Meets (mergeLike f op rest) (fun like =>
          (∀ combined, like = some combined →
            Meets (f (op.apply (merged.1.map number ++ combined)))
              (fun r => Q ⟨r.term, true⟩) E) ∧
          (like = none → Q (ofMembers op (merged.1.map number ++ rest) (changed || merged.2))))
          E) E) :
    Meets (reduceOperation f op ts) Q E := by
  unfold reduceOperation
  refine hmembers.bind fun out hout => ?_
  obtain ⟨members, changed⟩ := out
  have happend := leadingNumbers_append members
  -- the numbers stand in front, so that the members are split where they end
  cases hlead : leadingNumbers members with
  | mk numbers rest =>
    rw [hlead] at happend
    subst happend
    simp only [hlead]
    by_cases hzero : numbers.any op.absorbs = true
    · rw [if_pos hzero]
      exact habsorbed numbers rest changed hout hlead hzero
    · rw [if_neg hzero]
      refine (hmerged numbers rest changed hout hlead (Bool.eq_false_iff.mpr hzero)).bind
        fun merged hlike => ?_
      refine hlike.bind fun like hcases => ?_
      cases like with
      | some combined => exact (hcases.1 combined rfl).bind fun r hr => hr
      | none => exact hcases.2 rfl

/-! ## Powers -/

/-- The rule for powers. A fraction in the exponent is split first; otherwise the exponents 1
and 0 have rules of their own, and what is left depends on the kind of the base. -/
theorem reducePower_meets {Q : Reduced → Prop} {b e : Term} {changed : Bool}
    (hsplit : ∀ n d, splitExponent? e = some (n, d) →
      Meets (f (power (power b (.number (.ratio n 1))) (.number (.ratio 1 d))))
        (fun r => Q ⟨r.term, true⟩) E)
    (hwhole : splitExponent? e = none → Meets (wholeExponent? e) (fun whole =>
      (whole = some 1 → Q ⟨b, true⟩) ∧
      (whole = some 0 → Q ⟨.number Number.one, true⟩) ∧
      (whole ≠ some 1 → whole ≠ some 0 → Meets (combinePower f b e whole changed) Q E)) E) :
    Meets (reducePower f b e changed) Q E := by
  unfold reducePower
  cases hparts : splitExponent? e with
  | some parts => exact (hsplit parts.1 parts.2 hparts).bind fun r hr => hr
  | none =>
    refine (hwhole hparts).bind fun whole hcases => ?_
    obtain ⟨hone, hzero, hother⟩ := hcases
    by_cases h1 : whole = some 1
    · rw [if_pos h1]
      exact hone h1
    · rw [if_neg h1]
      by_cases h0 : whole = some 0
      · rw [if_pos h0]
        exact hzero h0
      · rw [if_neg h0]
        exact hother h1 h0

/-! ## Induction over reduction -/

/-- No term can be replaced forever by one that is nearer to being reduced. -/
theorem precedes_wellFounded : WellFounded Precedes := by
  have hlex : WellFounded (Prod.Lex (· < ·) (· < ·) : Nat × Nat → Nat × Nat → Prop) :=
    (Prod.lex Nat.lt_wfRel Nat.lt_wfRel).wf
  refine Subrelation.wf ?_ (InvImage.wf (fun t : Term => (t.depth, t.weight)) hlex)
  intro u t h
  rcases h with h | ⟨hd, hw⟩
  · exact Prod.Lex.left _ _ h
  · change Prod.Lex _ _ (u.depth, u.weight) (t.depth, t.weight)
    rw [hd]
    exact Prod.Lex.right _ hw

/-- A promise that one step keeps when the reductions of nearer terms keep it is kept by
reduction. -/
theorem reduce_meets_of_precedes {Q : Term → Reduced → Prop} {E : Term → Fault → Prop}
    (step : ∀ f t, (∀ u, u.Precedes t → Meets (f u) (Q u) (E u)) →
      Meets (reduceStep f t) (Q t) (E t)) (t : Term) : Meets t.reduce (Q t) (E t) := by
  induction t using precedes_wellFounded.induction with
  | _ t ih =>
    rw [reduce]
    refine step _ t fun u hu => ?_
    rw [if_pos hu]
    exact ih u hu

/-- A promise on the terms in `D` that one step keeps when the reductions it asks for keep it
is kept by reduction. The promise has to allow for a refusal to go on. -/
theorem reduce_meets {D : Term → Prop} {Q : Term → Reduced → Prop} {E : Term → Fault → Prop}
    (hend : ∀ t, E t (.mishap .endless))
    (step : ∀ f, (∀ u, D u → Meets (f u) (Q u) (E u)) →
      ∀ t, D t → Meets (reduceStep f t) (Q t) (E t))
    (t : Term) (ht : D t) : Meets t.reduce (Q t) (E t) := by
  induction t using precedes_wellFounded.induction with
  | _ t ih =>
    rw [reduce]
    refine step _ (fun u hu => ?_) t ht
    by_cases hlt : u.Precedes t
    · rw [if_pos hlt]
      exact ih u hlt hu
    · rw [if_neg hlt]
      exact hend u

end Term
end Mathpad
