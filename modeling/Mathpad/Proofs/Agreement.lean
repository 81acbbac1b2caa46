import Mathpad.Proofs.Outcome
import Mathpad.Term.Reduce

/-!
# One step of reduction, given different functions for the rest

`reduceStep` calls the function that it is given a finite number of times and looks at
nothing but the outcomes. So two functions with related outcomes give related steps,
for any relation that constant computations satisfy and that sequencing respects. Two
such relations are used: one side may refuse where the other one goes on, and a family
of computations may settle on an outcome. The first one compares recursions of
different depth, the second one says that some finite depth is enough.
-/
set_option autoImplicit false

namespace Mathpad

/-- A relation between a family of computations and one computation that sequencing
respects. -/
structure Agreement (W : Type) where
  rel : {α : Type} → (W → Outcome α) → Outcome α → Prop
  same : ∀ {α : Type} (o : Outcome α), rel (fun _ => o) o
  bind : ∀ {α β : Type} {x : W → Outcome α} {y : Outcome α} {k : W → α → Outcome β}
    {l : α → Outcome β}, rel x y → (∀ a, rel (fun w => k w a) (l a)) →
    rel (fun w => x w >>= k w) (y >>= l)

namespace Agreement

/-- The refusal to go on. -/
def endless {α : Type} : Outcome α := .error (.mishap .endless)

/-- The family refuses to go on, or has the outcome. -/
def refusing : Agreement Unit where
  rel x y := x () = endless ∨ x () = y
  same _ := Or.inr rfl
  bind := by
    intro α β x y k l hx hk
    change x () >>= k () = endless ∨ x () >>= k () = y >>= l
    rcases hx with hx | hx
    · left
      rw [hx]
      rfl
    · rw [hx]
      cases y with
      | ok a => exact hk a
      | error f => exact Or.inr rfl

/-- The family has the outcome from some index on. -/
def settling : Agreement Nat where
  rel x y := ∃ n, ∀ m, n ≤ m → x m = y
  same _ := ⟨0, fun _ _ => rfl⟩
  bind := by
    rintro α β x y k l ⟨n, hn⟩ hk
    change ∃ n, ∀ m, n ≤ m → x m >>= k m = y >>= l
    cases y with
    | ok a =>
      -- from the greater one of the two indices on, neither outcome changes any more
      obtain ⟨n', hn'⟩ := hk a
      refine ⟨max n n', fun m hm => ?_⟩
      rw [hn m (Nat.le_trans (Nat.le_max_left n n') hm)]
      exact hn' m (Nat.le_trans (Nat.le_max_right n n') hm)
    | error f =>
      refine ⟨n, fun m hm => ?_⟩
      rw [hn m hm]
      rfl

variable {W : Type} (A : Agreement W)

/-- Computations that agree on each member of a list agree on the list. -/
theorem mapM {α β : Type} {f : W → α → Outcome β} {g : α → Outcome β}
    (h : ∀ a, A.rel (fun w => f w a) (g a)) (xs : List α) :
    A.rel (fun w => xs.mapM (f w)) (xs.mapM g) := by
  induction xs with
  | nil => exact A.same _
  | cons x xs ih =>
    simp only [List.mapM_cons]
    exact A.bind (h x) fun y => A.bind ih fun ys => A.same _

end Agreement

namespace Term

open Agreement

variable {W : Type} (A : Agreement W) {f : W → Term → Outcome Reduced}
  {g : Term → Outcome Reduced}

/-- Reducing the members of an operation asks for reductions only, so it agrees where they do. -/
theorem reduceMembers_agrees (h : ∀ u, A.rel (fun w => f w u) (g u)) (op : Operation)
    (ts : List Term) :
    A.rel (fun w => reduceMembers (f w) op ts) (reduceMembers g op ts) := by
  unfold reduceMembers
  refine A.bind (A.same _) fun sorted => ?_
  exact A.bind (A.mapM h sorted) fun rs => A.same _

/-- Merging factors asks for one reduction, so it agrees where that does. -/
theorem mergeFactors_agrees (h : ∀ u, A.rel (fun w => f w u) (g u)) (first : Factor)
    (run : List Factor) :
    A.rel (fun w => mergeFactors (f w) first run) (mergeFactors g first run) := by
  unfold mergeFactors
  refine A.bind (h _) fun exponent => ?_
  exact A.bind (h _) fun power => A.same _

/-- Merging groups agrees where merging each group does. -/
theorem mergeRuns_agrees {ι : Type} {key whole : ι → Term}
    {f : W → ι → List ι → Outcome (Option Term)} {g : ι → List ι → Outcome (Option Term)}
    (h : ∀ i run, A.rel (fun w => f w i run) (g i run)) (items : List ι) :
    A.rel (fun w => mergeRuns key whole (f w) items) (mergeRuns key whole g items) := by
  unfold mergeRuns
  refine A.bind (A.same _) fun sorted => ?_
  refine A.bind (A.same _) fun runs => ?_
  refine A.bind (A.mapM ?_ runs) fun merged => A.same _
  -- a group of one asks for nothing
  intro run
  match run with
  | [] => exact A.same _
  | [_] => exact A.same _
  | first :: second :: more => exact h _ _

/-- Merging what is alike agrees where the reductions do. -/
theorem mergeLike_agrees (h : ∀ u, A.rel (fun w => f w u) (g u)) (op : Operation)
    (ts : List Term) : A.rel (fun w => mergeLike (f w) op ts) (mergeLike g op ts) := by
  cases op with
  | product => exact mergeRuns_agrees A (mergeFactors_agrees A h) _
  | sum => exact A.same _

/-- A step of reducing an operation agrees where the reductions do. -/
theorem reduceOperation_agrees (h : ∀ u, A.rel (fun w => f w u) (g u)) (op : Operation)
    (ts : List Term) :
    A.rel (fun w => reduceOperation (f w) op ts) (reduceOperation g op ts) := by
  unfold reduceOperation
  refine A.bind (reduceMembers_agrees A h op ts) fun out => ?_
  by_cases hzero : (leadingNumbers out.1).1.any op.absorbs
  · simp only [hzero, if_true]
    exact A.same _
  · simp only [hzero]
    refine A.bind (A.same _) fun merged => ?_
    refine A.bind (mergeLike_agrees A h op _) fun combined => ?_
    cases combined with
    | none => exact A.same _
    | some combined => exact A.bind (h _) fun r => A.same _

/-- Combining a base with its exponent agrees where the reductions do. -/
theorem combinePower_agrees (h : ∀ u, A.rel (fun w => f w u) (g u)) (b e : Term)
    (whole : Option Int) (changed : Bool) :
    A.rel (fun w => combinePower (f w) b e whole changed) (combinePower g b e whole changed) := by
  cases b with
  | number x => exact A.same _
  | var name => exact A.same _
  | product ts =>
    simp only [combinePower]
    exact A.bind (h _) fun r => A.same _
  | power b' e' =>
    simp only [combinePower]
    refine A.bind (h _) fun exponent => ?_
    by_cases hsplit : (splitExponent? exponent.term).isSome
    · simp only [hsplit, if_true]
      exact A.same _
    · simp only [hsplit]
      exact A.bind (h _) fun r => A.same _
  | sum ts => exact A.same _
  | call c ts => exact A.same _

/-- A step of reducing a power agrees where the reductions do. -/
theorem reducePower_agrees (h : ∀ u, A.rel (fun w => f w u) (g u)) (b e : Term)
    (changed : Bool) :
    A.rel (fun w => reducePower (f w) b e changed) (reducePower g b e changed) := by
  unfold reducePower
  cases splitExponent? e with
  | some parts => exact A.bind (h _) fun r => A.same _
  | none =>
    refine A.bind (A.same _) fun whole => ?_
    by_cases hone : whole = some 1
    · simp only [hone, if_true]
      exact A.same _
    · by_cases hzero : whole = some 0
      · simp only [hzero, if_true]
        exact A.same _
      · simp only [hone, hzero, if_false]
        exact combinePower_agrees A h b e whole changed

/-- Functions that agree on every term give steps that agree. -/
theorem reduceStep_agrees (h : ∀ u, A.rel (fun w => f w u) (g u)) (t : Term) :
    A.rel (fun w => reduceStep (f w) t) (reduceStep g t) := by
  cases t with
  | number x => exact A.same _
  | var name => exact A.same _
  | product ts => exact reduceOperation_agrees A h .product ts
  | sum ts => exact reduceOperation_agrees A h .sum ts
  | power b e =>
    simp only [reduceStep]
    refine A.bind (h b) fun base => ?_
    exact A.bind (h e) fun exponent => reducePower_agrees A h _ _ _
  | call c ts =>
    simp only [reduceStep]
    exact A.bind (A.mapM h ts) fun rs => A.same _

end Term
end Mathpad
