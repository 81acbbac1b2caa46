import Mathpad.Proofs.Outcome

/-!
# What an action promises

An action changes a state and has a result, or stops with a fault; the state is then as it
was left. `Ensures m s Q E` is what is said of an action from a state: the result and the
state after it satisfy `Q`, or the fault and the state satisfy `E`. As for `Meets`, the rules
follow the way in which actions are put together.
-/
set_option autoImplicit false

namespace Mathpad

/-- The result of the action and the state after it satisfy `Q`, or its fault and the state that
it left satisfy `E`. -/
def Ensures {σ α : Type} (m : ExceptT Fault (StateM σ) α) (s : σ) (Q : α → σ → Prop)
    (E : Fault → σ → Prop) : Prop :=
  match Id.run (m.run.run s) with
  | (.ok a, t) => Q a t
  | (.error f, t) => E f t

variable {σ α β : Type} {m : ExceptT Fault (StateM σ) α} {s : σ} {Q : α → σ → Prop}
  {E : Fault → σ → Prop}

@[simp] theorem ensures_pure {a : α} :
    Ensures (pure a : ExceptT Fault (StateM σ) α) s Q E ↔ Q a s := Iff.rfl

@[simp] theorem ensures_throw {f : Fault} :
    Ensures (throw f : ExceptT Fault (StateM σ) α) s Q E ↔ E f s := Iff.rfl

theorem Ensures.mono {P : α → σ → Prop} {D : Fault → σ → Prop} (hm : Ensures m s P D)
    (hQ : ∀ a t, P a t → Q a t) (hE : ∀ f t, D f t → E f t) : Ensures m s Q E := by
  unfold Ensures at *
  rcases hend : Id.run (m.run.run s) with ⟨f | a, t⟩
  · rw [hend] at hm
    exact hE f t hm
  · rw [hend] at hm
    exact hQ a t hm

/-- An action followed by another one. -/
theorem ensures_bind {k : α → ExceptT Fault (StateM σ) β} {R : β → σ → Prop} :
    Ensures (m >>= k) s R E ↔ Ensures m s (fun a t => Ensures (k a) t R E) E := by
  have hrun : Id.run ((m >>= k).run.run s) =
      match Id.run (m.run.run s) with
      | (.ok a, t) => Id.run ((k a).run.run t)
      | (.error f, t) => (.error f, t) := by
    show Id.run (ExceptT.bindCont k (Id.run (m.run.run s)).1 (Id.run (m.run.run s)).2) = _
    rcases Id.run (m.run.run s) with ⟨a | f, t⟩ <;> rfl
  unfold Ensures
  rw [hrun]
  rcases Id.run (m.run.run s) with ⟨f | a, t⟩ <;> exact Iff.rfl

theorem Ensures.bind {k : α → ExceptT Fault (StateM σ) β} {P : α → σ → Prop} {R : β → σ → Prop}
    (hm : Ensures m s P E) (hk : ∀ a t, P a t → Ensures (k a) t R E) :
    Ensures (m >>= k) s R E :=
  ensures_bind.mpr (hm.mono hk fun _ _ h => h)

/-- Two promises of one action are kept together. -/
theorem Ensures.and {P : α → σ → Prop} {D : Fault → σ → Prop} (hm : Ensures m s Q E)
    (hm' : Ensures m s P D) :
    Ensures m s (fun a t => Q a t ∧ P a t) fun f t => E f t ∧ D f t := by
  unfold Ensures at *
  rcases hend : Id.run (m.run.run s) with ⟨f | a, t⟩ <;> rw [hend] at hm hm' <;> exact ⟨hm, hm'⟩

theorem Ensures.imp {P : α → σ → Prop} (hm : Ensures m s P E) (hQ : ∀ a t, P a t → Q a t) :
    Ensures m s Q E :=
  hm.mono hQ fun _ _ h => h

/-- What is promised of every end of an action, and does not speak of it, is true. -/
theorem Ensures.elim {C : Prop} (hm : Ensures m s (fun _ _ => C) fun _ _ => C) : C := by
  unfold Ensures at hm
  rcases hend : Id.run (m.run.run s) with ⟨f | a, t⟩ <;> rw [hend] at hm <;> exact hm

/-- What is true at the end of an action is what the action ensures. -/
theorem Ensures.reflect :
    Ensures m s (fun a t => Q a t → Ensures m s Q E) fun f t => E f t → Ensures m s Q E := by
  unfold Ensures
  rcases Id.run (m.run.run s) with ⟨f | a, t⟩ <;> exact id

/-- An action ends in one way. -/
theorem ensures_ends (m : ExceptT Fault (StateM σ) α) (s : σ) :
    Ensures m s (fun a t => Ensures m s (fun b u => b = a ∧ u = t) fun _ _ => False)
      fun f t => Ensures m s (fun _ _ => False) fun g u => g = f ∧ u = t := by
  unfold Ensures
  rcases Id.run (m.run.run s) with ⟨f | a, t⟩ <;> exact ⟨rfl, rfl⟩

/-- What is promised of a fault is true of the one that comes up, and of the state that it leaves. -/
theorem Ensures.of_fails {f : Fault} {t : σ} (hm : Ensures m s Q E)
    (hfails : Ensures m s (fun _ _ => False) fun g u => g = f ∧ u = t) : E f t := by
  refine ((hm.and hfails).mono (fun _ _ hn => hn.2.elim) ?_).elim
  rintro _ _ ⟨hE, rfl, rfl⟩
  exact hE

/-- A computation leaves the state as it is. -/
theorem ensures_lift {o : Outcome α} :
    Ensures (liftM o) s Q E ↔ Meets o (fun a => Q a s) (fun f => E f s) := by
  cases o <;> exact Iff.rfl

/-- A computation that has a result, followed by an action. -/
theorem ensures_lift_ok {o : Outcome α} {a : α} {k : α → ExceptT Fault (StateM σ) β}
    {R : β → σ → Prop} (ho : o = .ok a) (h : Ensures (k a) s R E) :
    Ensures (liftM o >>= k) s R E := by
  rw [ho]
  exact h

theorem ensures_lift_error {o : Outcome α} {f : Fault} {k : α → ExceptT Fault (StateM σ) β}
    {R : β → σ → Prop} (ho : o = .error f) (h : E f s) : Ensures (liftM o >>= k) s R E := by
  rw [ho]
  exact h

/-- A computation about which nothing is known, followed by an action. -/
theorem ensures_lift_any {o : Outcome α} {k : α → ExceptT Fault (StateM σ) β}
    {R : β → σ → Prop} (h : ∀ a, Ensures (k a) s R fun _ _ => True) :
    Ensures (liftM o >>= k) s R fun _ _ => True := by
  cases o with
  | ok a => exact h a
  | error f => exact trivial

theorem ensures_get {k : σ → ExceptT Fault (StateM σ) β} {R : β → σ → Prop}
    (h : Ensures (k s) s R E) : Ensures (get >>= k) s R E :=
  h

theorem ensures_set {k : PUnit → ExceptT Fault (StateM σ) β} {R : β → σ → Prop} {t : σ}
    (h : Ensures (k ⟨⟩) t R E) : Ensures (set t >>= k) s R E :=
  h

theorem ensures_modify {f : σ → σ} {Q : PUnit → σ → Prop} :
    Ensures (modify f : ExceptT Fault (StateM σ) PUnit) s Q E ↔ Q ⟨⟩ (f s) := Iff.rfl

end Mathpad
