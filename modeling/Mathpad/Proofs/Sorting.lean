import Mathlib.Data.List.Chain
import Mathpad.Proofs.Outcome
import Mathpad.Term.Order

/-!
# Sorting and grouping with a comparison that may fail

Sorting permutes, and grouping cuts, whatever the comparison is. When comparing the
other way around gives the opposite, no member of a sorted list is above the one
behind it, and a list of which this is true is left alone. Nothing here needs the
comparison to be transitive.
-/
set_option autoImplicit false

namespace Mathpad

variable {α : Type} {cmp : α → α → Outcome Ordering} {E : Fault → Prop}

/-- `a` may stand before `b`. -/
def InOrder (cmp : α → α → Outcome Ordering) (a b : α) : Prop :=
  ∃ o, cmp a b = .ok o ∧ o ≠ .gt

/-- Comparing the other way around gives the opposite. -/
def Swaps (cmp : α → α → Outcome Ordering) : Prop :=
  ∀ a b o, cmp a b = .ok o → cmp b a = .ok o.swap

/-! ## Sorting permutes -/

/-- Comparisons with `x` that are made while it is put into a list. -/
theorem insertBy_meets {x : α} {ys : List α}
    (h : ∀ y ∈ ys, Meets (cmp x y) (fun _ => True) E) :
    Meets (insertBy cmp x ys) (fun zs => zs.Perm (x :: ys)) E := by
  induction ys with
  | nil => exact List.Perm.refl _
  | cons y ys ih =>
    rw [insertBy]
    refine (h y (by simp)).bind fun o _ => ?_
    by_cases ho : o = .lt
    · rw [if_pos ho]
      refine (ih fun z hz => h z (by simp [hz])).bind fun zs hzs => ?_
      exact (hzs.cons y).trans (List.Perm.swap x y ys)
    · rw [if_neg ho]
      exact List.Perm.refl _

/-- Sorting puts all members in some order, if they can be compared with each other. -/
theorem sortBy_meets {xs : List α}
    (h : ∀ x ∈ xs, ∀ y ∈ xs, Meets (cmp x y) (fun _ => True) E) :
    Meets (sortBy cmp xs) (fun ys => ys.Perm xs) E := by
  have hloop := Meets.foldlM (E := E) (f := fun sorted x => insertBy cmp x sorted)
    -- what has not been put in yet and what has been are all the members
    (fun rest sorted => (rest ++ sorted).Perm xs)
    (fun x rest sorted hp => by
      have hx : x ∈ xs := hp.subset (by simp)
      have hmem : ∀ y ∈ sorted, y ∈ xs := fun y hy => hp.subset (by simp [hy])
      refine (insertBy_meets fun y hy => h x hx y (hmem y hy)).imp fun zs hzs => ?_
      exact ((hzs.append_left rest).trans List.perm_middle).trans hp)
    xs (b := []) (by simp)
  refine hloop.bind fun sorted hsorted => ?_
  exact (List.reverse_perm sorted).trans hsorted

/-- What comes out of sorting is what went in, in some order. -/
theorem sortBy_perm {xs ys : List α} (h : sortBy cmp xs = .ok ys) : ys.Perm xs :=
  (sortBy_meets (E := fun _ => True) fun _ _ _ _ => meets_true _).of_ok h

/-! ## Sorting sorts -/

/-- The order of the list that is built while sorting, which is descending. -/
theorem insertBy_isChain (hcmp : Swaps cmp) {x : α} {ys : List α}
    (h : ys.IsChain fun a b => InOrder cmp b a) :
    Meets (insertBy cmp x ys)
      (fun zs => (zs.IsChain fun a b => InOrder cmp b a) ∧
        ∀ z ∈ zs.head?, z = x ∨ z ∈ ys.head?) fun _ => True := by
  induction ys with
  | nil => simp [insertBy]
  | cons y ys ih =>
    rw [insertBy]
    refine (meets_true (cmp x y)).eq_and.bind fun o ho => ?_
    by_cases hlt : o = .lt
    · rw [if_pos hlt]
      refine (ih h.tail).bind fun zs hzs => ⟨?_, by simp⟩
      -- `y` stays where it is, and behind it comes `x` or what came there before
      refine List.isChain_cons.mpr ⟨fun z hz => ?_, hzs.1⟩
      rcases hzs.2 z hz with rfl | hz
      · exact ⟨o, ho.1, by simp [hlt]⟩
      · exact (List.isChain_cons.mp h).1 z hz
    · rw [if_neg hlt]
      refine ⟨List.isChain_cons.mpr ⟨fun z hz => ?_, h⟩, by simp⟩
      obtain rfl : y = z := by simpa using hz
      refine ⟨o.swap, hcmp _ _ _ ho.1, ?_⟩
      cases o <;> simp_all

/-- No member of a sorted list is above the next one. -/
theorem sortBy_isChain (hcmp : Swaps cmp) {xs ys : List α} (h : sortBy cmp xs = .ok ys) :
    ys.IsChain (InOrder cmp) := by
  have hloop := Meets.foldlM (E := fun _ => True) (f := fun sorted x => insertBy cmp x sorted)
    -- the list is built in descending order and reversed in the end
    (fun _ sorted => sorted.IsChain fun a b => InOrder cmp b a)
    (fun x _ sorted hs => (insertBy_isChain hcmp hs).imp fun zs hzs => hzs.1)
    xs (b := []) List.isChain_nil
  have hall : Meets (sortBy cmp xs) (fun ys => ys.IsChain (InOrder cmp)) fun _ => True :=
    hloop.bind fun sorted hs => by
      rw [meets_pure, List.isChain_reverse]
      exact hs
  exact hall.of_ok h

/-- A member that may stand behind all the others is put at their end at once. -/
theorem insertBy_of_inOrder (hcmp : Swaps cmp) {x : α} {ys : List α}
    (h : ∀ y ∈ ys.head?, InOrder cmp y x) : insertBy cmp x ys = .ok (x :: ys) := by
  cases ys with
  | nil => rfl
  | cons y ys =>
    obtain ⟨o, ho, hgt⟩ := h y (by simp)
    have hlt : o.swap ≠ .lt := by cases o <;> simp_all
    rw [insertBy, hcmp _ _ _ ho]
    exact if_neg hlt

/-- Sorting leaves a list alone in which every member may stand before the next one. -/
theorem sortBy_of_isChain (hcmp : Swaps cmp) {xs : List α} (h : xs.IsChain (InOrder cmp)) :
    sortBy cmp xs = .ok xs := by
  have hloop : ∀ rest sorted : List α, (sorted.reverse ++ rest).IsChain (InOrder cmp) →
      rest.foldlM (fun sorted x => insertBy cmp x sorted) sorted
        = (.ok (rest.reverse ++ sorted) : Outcome (List α)) := by
    intro rest
    induction rest with
    | nil => intro sorted _; rfl
    | cons x rest ih =>
      intro sorted hc
      -- the head of `sorted` stands before `x` in the list that is being sorted
      have hx : insertBy cmp x sorted = .ok (x :: sorted) := by
        refine insertBy_of_inOrder hcmp fun y hy => ?_
        refine (List.isChain_append.mp hc).2.2 y ?_ x (by simp)
        simpa using hy
      rw [List.foldlM_cons, hx]
      have hc' : ((x :: sorted).reverse ++ rest).IsChain (InOrder cmp) := by simpa using hc
      rw [ok_bind, ih (x :: sorted) hc']
      simp
  have hall := hloop xs [] (by simpa using h)
  unfold sortBy
  rw [hall, ok_bind]
  simp [pure, Except.pure]

/-! ## Grouping cuts -/

/-- A group: everything in it compares equal to its first member. -/
def IsRun (cmp : α → α → Outcome Ordering) : List α → Prop
  | [] => False
  | first :: more => ∀ y ∈ more, cmp first y = .ok .eq

/-- What a list of groups is, the last group coming first, once the members `done` were cut. -/
structure RunsOf (cmp : α → α → Outcome Ordering) (done : List α) (runs : List (List α)) :
    Prop where
  flatten_reverse : runs.reverse.flatten = done
  isRun : ∀ run ∈ runs, IsRun cmp run

/-- A member is added to the newest group or begins one, so the groups make up one member more. -/
theorem addToRuns_meets {x : α} {done : List α} {runs : List (List α)}
    (hruns : RunsOf cmp done runs) (h : ∀ y ∈ done, Meets (cmp y x) (fun _ => True) E) :
    Meets (addToRuns cmp x runs) (RunsOf cmp (done ++ [x])) E := by
  obtain ⟨hdone, hall⟩ := hruns
  cases runs with
  | nil =>
    refine ⟨by simp_all, fun run hrun => ?_⟩
    obtain rfl : run = [x] := by simpa using hrun
    simp [IsRun]
  | cons run runs =>
    cases run with
    | nil => exact absurd (hall [] (by simp)) (by simp [IsRun])
    | cons first more =>
      have hfirst : first ∈ done := by rw [← hdone]; simp
      have hrun := hall (first :: more) (by simp)
      rw [addToRuns]
      refine (h first hfirst).eq_and.bind fun o ho => ?_
      -- only the first member of the newest group is compared with `x`
      by_cases heq : o = .eq
      · rw [if_pos heq]
        refine ⟨by simp [← hdone], fun other hother => ?_⟩
        rcases List.mem_cons.mp hother with rfl | hother
        · intro y hy
          rcases List.mem_append.mp hy with hy | hy
          · exact hrun y hy
          · obtain rfl : y = x := by simpa using hy
            rw [ho.1, heq]
        · exact hall other (by simp [hother])
      · rw [if_neg heq]
        refine ⟨by simp [← hdone], fun other hother => ?_⟩
        rcases List.mem_cons.mp hother with rfl | hother
        · simp [IsRun]
        · exact hall other hother

/-- The groups of a list make up the list. -/
theorem runsBy_meets {xs : List α}
    (h : ∀ x ∈ xs, ∀ y ∈ xs, Meets (cmp x y) (fun _ => True) E) :
    Meets (runsBy cmp xs) (fun runs => runs.flatten = xs ∧ ∀ run ∈ runs, IsRun cmp run) E := by
  have hloop := Meets.foldlM (E := E) (f := fun runs x => addToRuns cmp x runs)
    (fun rest runs => ∃ done, done ++ rest = xs ∧ RunsOf cmp done runs)
    (fun x rest runs hinv => by
      obtain ⟨done, hxs, hruns⟩ := hinv
      have hx : x ∈ xs := by rw [← hxs]; simp
      have hmem : ∀ y ∈ done, y ∈ xs := fun y hy => by rw [← hxs]; simp [hy]
      refine (addToRuns_meets hruns fun y hy => h y (hmem y hy) x hx).imp fun runs' hr => ?_
      exact ⟨done ++ [x], by simpa using hxs, hr⟩)
    xs (b := []) ⟨[], by simp, by simp, by simp⟩
  refine hloop.bind fun runs hinv => ?_
  obtain ⟨done, hxs, hflat, hall⟩ := hinv
  rw [List.append_nil] at hxs
  exact ⟨hflat.trans hxs, fun run hrun => hall run (List.mem_reverse.mp hrun)⟩

/-! ## Grouping finds ties -/

/-- The two compare, and not as equal. -/
def Unlike (cmp : α → α → Outcome Ordering) (a b : α) : Prop := ∃ o, cmp a b = .ok o ∧ o ≠ .eq

theorem Unlike.symm (hcmp : Swaps cmp) {a b : α} (h : Unlike cmp a b) : Unlike cmp b a := by
  obtain ⟨o, ho, hne⟩ := h
  refine ⟨o.swap, hcmp a b o ho, ?_⟩
  cases o <;> simp_all

/-- Each group has one member that is unlike the one before. The last group comes first. -/
def Singles (cmp : α → α → Outcome Ordering) (runs : List (List α)) : Prop :=
  ∃ xs : List α, runs = xs.map ([·]) ∧ xs.IsChain fun b a => Unlike cmp a b

/-- A member either joins a group or begins one of its own, and what it begins one behind is
unlike it. -/
theorem addToRuns_singles (x : α) {runs : List (List α)}
    (h : (∃ run ∈ runs, 1 < run.length) ∨ Singles cmp runs) :
    Meets (addToRuns cmp x runs)
      (fun runs => (∃ run ∈ runs, 1 < run.length) ∨ Singles cmp runs) fun _ => True := by
  match runs, h with
  | [], _ => exact .inr ⟨[x], rfl, List.isChain_singleton x⟩
  | [] :: runs, h =>
    refine .inl ?_
    rcases h with ⟨run, hrun, hlong⟩ | ⟨xs, hxs, -⟩
    · exact ⟨run, by simp [hrun], hlong⟩
    · cases xs <;> cases hxs
  | (first :: more) :: runs, h =>
    rw [addToRuns]
    refine (meets_true (cmp first x)).eq_and.bind fun o ho => ?_
    by_cases heq : o = .eq
    · rw [if_pos heq]
      exact .inl ⟨first :: more ++ [x], by simp, by simp⟩
    · rw [if_neg heq]
      rcases h with ⟨run, hrun, hlong⟩ | ⟨xs, hxs, hchain⟩
      · exact .inl ⟨run, by simp [List.mem_cons.mp hrun], hlong⟩
      · -- the newest group consists of one member, so the new one is unlike that
        obtain ⟨y, ys, rfl⟩ : ∃ y ys, xs = y :: ys := List.exists_cons_of_ne_nil fun hnil => by
          rw [hnil] at hxs
          cases hxs
        obtain ⟨hhead, -⟩ := List.cons.inj hxs
        obtain ⟨rfl, -⟩ := List.cons.inj hhead
        exact .inr ⟨x :: first :: ys, by rw [hxs]; rfl, hchain.cons_cons ⟨o, ho.1, heq⟩⟩

/-- Where grouping leaves every member in a group of its own, each is unlike the one before. -/
theorem runsBy_unlike {xs : List α} {runs : List (List α)} (h : runsBy cmp xs = .ok runs)
    (hshort : ∀ run ∈ runs, run.length ≤ 1) : xs.IsChain (Unlike cmp) := by
  have hloop := Meets.foldlM (E := fun _ => True) (f := fun runs x => addToRuns cmp x runs)
    (fun _ runs => (∃ run ∈ runs, 1 < run.length) ∨ Singles cmp runs)
    (fun x _ _ hinv => addToRuns_singles x hinv)
    xs (b := []) (.inr ⟨[], rfl, List.isChain_nil⟩)
  have hflat := ((runsBy_meets fun _ _ _ _ => meets_true _).of_ok h).1
  unfold runsBy at h
  obtain ⟨last, hlast, h⟩ := Outcome.bind_eq_ok.mp h
  obtain rfl : last.reverse = runs := Except.ok.inj h
  rcases hloop.of_ok hlast with ⟨run, hrun, hlong⟩ | ⟨ys, hys, hchain⟩
  · exact absurd (hshort run (List.mem_reverse.mpr hrun)) (not_le.mpr hlong)
  -- the groups come in descending order, and in the order of the list once reversed
  · have hreverse : ys.reverse = xs := by
      rw [← hflat, hys, ← List.map_reverse, ← List.flatMap_def, List.flatMap_singleton']
    rw [← hreverse, List.isChain_reverse]
    exact hchain

end Mathpad
