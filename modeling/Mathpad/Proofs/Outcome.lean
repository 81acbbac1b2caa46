import Mathlib.Data.List.Forall2
import Mathpad.Fault

/-!
# What a computation that may fail promises

A computation either has a result or reports a fault, and a statement about it has
to say something about both. `Meets o Q E` is that statement: the result satisfies
`Q`, the fault satisfies `E`. The rules below follow the way in which computations
are put together, so that a property of a function is proved along its text.
-/
set_option autoImplicit false

namespace Mathpad

/-- The result of a computation satisfies `Q`, or its fault satisfies `E`. -/
def Meets {α : Type} (o : Outcome α) (Q : α → Prop) (E : Fault → Prop) : Prop :=
  match o with
  | .ok a => Q a
  | .error f => E f

variable {α β : Type} {E : Fault → Prop}

@[simp] theorem meets_ok {a : α} {Q : α → Prop} : Meets (.ok a) Q E ↔ Q a := Iff.rfl

@[simp] theorem meets_pure {a : α} {Q : α → Prop} : Meets (pure a) Q E ↔ Q a := Iff.rfl

@[simp] theorem meets_error {f : Fault} {Q : α → Prop} : Meets (.error f) Q E ↔ E f := Iff.rfl

@[simp] theorem meets_failMaths {e : MathsError} {Q : α → Prop} :
    Meets (failMaths e) Q E ↔ E (.maths e) := Iff.rfl

@[simp] theorem ok_bind {a : α} {k : α → Outcome β} : ((.ok a : Outcome α) >>= k) = k a := rfl

@[simp] theorem error_bind {f : Fault} {k : α → Outcome β} :
    ((.error f : Outcome α) >>= k) = .error f := rfl

/-- A computation followed by another one. -/
theorem Meets.bind {o : Outcome α} {k : α → Outcome β} {P : α → Prop} {Q : β → Prop}
    (ho : Meets o P E) (hk : ∀ a, P a → Meets (k a) Q E) : Meets (o >>= k) Q E := by
  cases o with
  | ok a => exact hk a ho
  | error f => exact ho

/-- A promise can be weakened on both sides. -/
theorem Meets.mono {o : Outcome α} {P Q : α → Prop} {D : Fault → Prop}
    (ho : Meets o P D) (hQ : ∀ a, P a → Q a) (hE : ∀ f, D f → E f) : Meets o Q E := by
  cases o with
  | ok a => exact hQ a ho
  | error f => exact hE f ho

/-- A weaker promise on the result. -/
theorem Meets.imp {o : Outcome α} {P Q : α → Prop} (ho : Meets o P E)
    (hQ : ∀ a, P a → Q a) : Meets o Q E :=
  ho.mono hQ (fun _ hf => hf)

/-- Two promises about one computation. -/
theorem Meets.and {o : Outcome α} {P Q : α → Prop} {D : Fault → Prop} (ho : Meets o P D)
    (hn : Meets o Q E) : Meets o (fun a => P a ∧ Q a) (fun f => D f ∧ E f) := by
  cases o with
  | ok a => exact ⟨ho, hn⟩
  | error f => exact ⟨ho, hn⟩

/-- A promise on the result may use that it is the result. -/
theorem Meets.eq_and {o : Outcome α} {Q : α → Prop} (ho : Meets o Q E) :
    Meets o (fun a => o = .ok a ∧ Q a) E := by
  cases o with
  | ok a => exact ⟨rfl, ho⟩
  | error f => exact ho

/-- A computation without any promise. -/
theorem meets_true (o : Outcome α) : Meets o (fun _ => True) fun _ => True := by
  cases o <;> exact trivial

/-- A promise that is kept whatever has been computed before. -/
theorem Meets.after {o : Outcome α} {k : α → Outcome β} {Q : β → Prop}
    (hk : ∀ a, Meets (k a) Q fun _ => True) : Meets (o >>= k) Q fun _ => True :=
  (meets_true o).bind fun a _ => hk a

theorem Meets.of_ok {o : Outcome α} {Q : α → Prop} {a : α} (ho : Meets o Q E)
    (h : o = .ok a) : Q a := by
  rw [h] at ho
  exact ho

theorem Meets.of_error {o : Outcome α} {Q : α → Prop} {f : Fault} (ho : Meets o Q E)
    (h : o = .error f) : E f := by
  rw [h] at ho
  exact ho

/-- A computation without any fault to report has a result. -/
theorem Meets.exists_ok {o : Outcome α} {Q : α → Prop} (ho : Meets o Q fun _ => False) :
    ∃ a, o = .ok a ∧ Q a := by
  cases o with
  | ok a => exact ⟨a, rfl, ho⟩
  | error f => exact ho.elim

/-- A computation whose result is worked on. -/
theorem Meets.map {o : Outcome α} {g : α → β} {Q : β → Prop}
    (ho : Meets o (fun a => Q (g a)) E) : Meets (g <$> o) Q E := by
  cases o with
  | ok a => exact ho
  | error f => exact ho

/-- Each member of the second of two related lists is related to one of the first. -/
theorem exists_of_forall₂_right {R : α → β → Prop} {xs : List α} {ys : List β}
    (h : List.Forall₂ R xs ys) {y : β} (hy : y ∈ ys) : ∃ x ∈ xs, R x y := by
  induction h with
  | nil => simp at hy
  | cons hxy _ ih =>
    rcases List.mem_cons.mp hy with rfl | hy
    · exact ⟨_, by simp, hxy⟩
    · obtain ⟨x, hx, hr⟩ := ih hy
      exact ⟨x, by simp [hx], hr⟩

/-- What is true of all members of the second list can be added to what relates the two. -/
theorem forall₂_and_right {R : α → β → Prop} {P : β → Prop} {xs : List α} {ys : List β}
    (h : List.Forall₂ R xs ys) (hP : ∀ y ∈ ys, P y) :
    List.Forall₂ (fun x y => R x y ∧ P y) xs ys := by
  induction h with
  | nil => exact List.Forall₂.nil
  | cons hxy _ ih =>
    exact List.Forall₂.cons ⟨hxy, hP _ (by simp)⟩ (ih fun y hy => hP y (by simp [hy]))

/-- One computation for each member of a list. -/
theorem Meets.mapM {f : α → Outcome β} {Q : α → β → Prop} {xs : List α}
    (h : ∀ x ∈ xs, Meets (f x) (Q x) E) :
    Meets (xs.mapM f) (fun ys => List.Forall₂ Q xs ys) E := by
  induction xs with
  | nil => exact List.Forall₂.nil
  | cons x xs ih =>
    rw [List.mapM_cons]
    refine (h x (by simp)).bind fun y hy => ?_
    refine (ih fun z hz => h z (by simp [hz])).bind fun ys hys => ?_
    exact List.Forall₂.cons hy hys

/-- A list of results comes from computations that succeed one by one. -/
theorem forall₂_of_mapM {f : α → Outcome β} {xs : List α} {ys : List β} (h : xs.mapM f = .ok ys) :
    List.Forall₂ (fun x y => f x = .ok y) xs ys := by
  have hself : ∀ x ∈ xs, Meets (f x) (fun y => f x = .ok y) fun _ => True := by
    intro x _
    cases f x with
    | ok y => exact rfl
    | error e => exact trivial
  exact (Meets.mapM hself).of_ok h

/-- Computations that succeed one by one give the list of their results. -/
theorem mapM_of_forall₂ {f : α → Outcome β} {xs : List α} {ys : List β}
    (h : List.Forall₂ (fun x y => f x = .ok y) xs ys) : xs.mapM f = .ok ys := by
  induction h with
  | nil => rfl
  | cons hx _ ih =>
    rw [List.mapM_cons, hx, ok_bind, ih, ok_bind]
    rfl

/-- A function of each result. -/
theorem mapM_then {γ : Type} {f : α → Outcome β} {xs : List α} {ys : List β}
    (h : xs.mapM f = .ok ys) (g : β → γ) :
    xs.mapM (fun x => do return g (← f x)) = .ok (ys.map g) := by
  refine mapM_of_forall₂ (List.forall₂_map_right_iff.mpr ((forall₂_of_mapM h).imp fun x y hx => ?_))
  rw [hx]
  rfl

/-- Computations that agree on all members of a list agree on the list. -/
theorem mapM_congr {f g : α → Outcome β} {xs : List α}
    (h : ∀ x ∈ xs, f x = g x) : xs.mapM f = xs.mapM g := by
  induction xs with
  | nil => rfl
  | cons x xs ih =>
    rw [List.mapM_cons, List.mapM_cons, h x (by simp), ih fun y hy => h y (by simp [hy])]

/-- Computations that all give what a function says. -/
theorem mapM_eq_map {f : α → Outcome β} {g : α → β} {xs : List α}
    (h : ∀ x ∈ xs, f x = .ok (g x)) : xs.mapM f = .ok (xs.map g) := by
  induction xs with
  | nil => rfl
  | cons x xs ih =>
    rw [List.mapM_cons, h x (by simp), ok_bind, ih fun y hy => h y (by simp [hy])]
    rfl

/-- One computation for each member, in two ways that differ at one place only. -/
theorem mapM_exchange {f g : α → Outcome β} {xs : List α} {x : α} {y z : β} {k : Nat}
    (hx : xs[k]? = some x) (hf : f x = .ok y) (hg : g x = .ok z)
    (hothers : ∀ (i : Nat) (w : α), xs[i]? = some w → i ≠ k → ∃ v, f w = .ok v ∧ g w = .ok v) :
    ∃ ys zs, xs.mapM f = .ok (ys ++ y :: zs) ∧ xs.mapM g = .ok (ys ++ z :: zs) := by
  induction xs generalizing k with
  | nil => simp at hx
  | cons w xs ih =>
    simp only [List.mapM_cons]
    cases k with
    | zero =>
      cases hx
      -- behind the place the two ways agree and succeed
      have hrest : ∀ w ∈ xs, ∃ v, f w = .ok v ∧ g w = .ok v := by
        intro w hw
        obtain ⟨i, hi⟩ := List.mem_iff_getElem?.mp hw
        exact hothers (i + 1) w hi i.succ_ne_zero
      have hmeets : Meets (xs.mapM f) (fun _ => True) fun _ => False := by
        refine (Meets.mapM (Q := fun _ _ => True) fun w hw => ?_).imp fun _ _ => trivial
        obtain ⟨v, hv, -⟩ := hrest w hw
        rw [hv]
        trivial
      obtain ⟨vs, hvs, -⟩ := hmeets.exists_ok
      have hsame : xs.mapM g = xs.mapM f := mapM_congr fun w hw => by
        obtain ⟨v, hv, hv'⟩ := hrest w hw
        rw [hv, hv']
      exact ⟨[], vs, by rw [hf, ok_bind, hvs]; rfl, by rw [hg, ok_bind, hsame, hvs]; rfl⟩
    | succ k =>
      obtain ⟨v, hv, hv'⟩ := hothers 0 w rfl k.succ_ne_zero.symm
      obtain ⟨ys, zs, hys, hzs⟩ := ih (by simpa using hx) fun i u hu hne =>
        hothers (i + 1) u (by simpa using hu) (by omega)
      exact ⟨v :: ys, zs, by rw [hv, ok_bind, hys]; rfl, by rw [hv', ok_bind, hzs]; rfl⟩

/-- A loop over a list, with an invariant that sees what is left of the list. -/
theorem Meets.foldlM {f : β → α → Outcome β} (I : List α → β → Prop)
    (step : ∀ x xs b, I (x :: xs) b → Meets (f b x) (I xs) E) (xs : List α) {b : β}
    (h : I xs b) : Meets (xs.foldlM f b) (I []) E := by
  induction xs generalizing b with
  | nil => exact h
  | cons x xs ih =>
    rw [List.foldlM_cons]
    exact (step x xs b h).bind fun c hc => ih hc

end Mathpad
