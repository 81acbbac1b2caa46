import Mathpad.Proofs.Blame
import Mathpad.Proofs.ResultRows
import Mathpad.Proofs.Windows

/-!
# What a failure leaves behind

A key that fails because of its name, the row as an expression or arithmetic has changed nothing: these
faults come up before the row, the cursor or the window is touched, and what comes after that is never the
user's fault (`Session.Spares`). So a script that fails at a key leaves what the keys before it have made.

A window that is too small for the cursor is found out last, when an edit has been made and the cursor is
to be shown. If every call has an argument that is the only fault which leaves something else
(`Session.Recovers`).
-/
set_option autoImplicit false

namespace Mathpad

/-- The cursor does not fit into the window. -/
def Fault.IsMisfit (f : Fault) : Prop := f = .breach .cursorTooTall ∨ f = .breach .cursorTooWide

namespace Session

variable {α β : Type} {s t u : Session} {settings : EvalSettings}

/-! ## Showing the cursor -/

/-- Where the path of a session can be followed, the only thing that keeps the cursor from being
shown is a window that is too small for it. -/
theorem showCursor_misfit (h : s.path.Addresses s.root) :
    Ensures showCursor s (fun _ _ => True) fun f _ => f.IsMisfit := by
  cases hv : s.viewport with
  | none => exact showCursor_windowless hv trivial
  | some v =>
    obtain ⟨g, hg⟩ := exists_cursor h
    refine (showCursor_ensures_scrolled hg hv).mono (fun _ _ _ => trivial) ?_
    rintro f _ ⟨-, ⟨rfl, -⟩ | ⟨rfl, -⟩⟩
    · exact .inl rfl
    · exact .inr rfl

/-! ## Faults of the user -/

/-- Where the user is to blame for a fault of the action, the session is as it was. -/
def Spares (m : Editing α) : Prop :=
  ∀ s : Session, Ensures m s (fun _ _ => True) fun f t => f.IsGuarded → t = s

/-- The cursor can enter every item, and it is at a place. -/
def IsOpen (s : Session) : Prop := s.root.Everywhere Item.OpenHere ∧ s.path.Addresses s.root

/-- The action leads from open sessions to open ones. Where it fails, the session is as it was or the
cursor does not fit into the window. -/
def Recovers (m : Editing α) : Prop :=
  ∀ s : Session, s.IsOpen → Ensures m s (fun _ t => t.IsOpen) fun f t => t = s ∨ f.IsMisfit

/-- An action that is never the user's fault spares the session where it is. -/
theorem spares_of_blameless {m : Editing α} (h : ActsBlameless m) : Spares m :=
  fun s => (h s).mono (fun _ _ _ => trivial) fun _ _ hnot hguarded => absurd hguarded hnot

theorem spares_throw (f : Fault) : Spares (throw f : Editing α) := fun _ _ => rfl

theorem recovers_throw (f : Fault) : Recovers (throw f : Editing α) := fun _ _ => .inl rfl

/-- An action that can fail only where it shows the cursor. -/
theorem recovers_of_follows {m : Editing α} (hkeeps : ∀ E, Keeps Item.OpenHere E m)
    (hfollows : ∀ s, Follows m m s) : Recovers m := by
  rintro s ⟨hitems, hcursor⟩
  refine ((hfollows s).ensures hkeeps hitems hcursor).mono (fun _ _ ht => ht) ?_
  rintro f t ⟨⟨-, ht⟩, -, hshow⟩
  exact .inr ((showCursor_misfit ht).of_fails hshow)

/-! ## Keys -/

/-- A text is typed by inserting a token, or it cannot be typed. -/
theorem typeText_elim {motive : Editing Unit → Prop} (hinsert : ∀ t, motive (insert (.token t)))
    (hthrow : ∀ e, motive (throw (.input e))) (text : String) : motive (typeText text) := by
  unfold typeText
  split
  · next t _ => exact hinsert t
  · split
    · exact hinsert (.var text)
    · exact hthrow _

/-- No edit of the row is the user's fault. -/
theorem act_blameless (edit : Edit) : ActsBlameless edit.act := by
  cases edit with
  | left => exact moveLeft_blameless
  | right => exact moveRight_blameless
  | up => exact (moveVertically_blameless .up).bind fun _ => actsBlameless_pure _
  | down => exact (moveVertically_blameless .down).bind fun _ => actsBlameless_pure _
  | insert item => exact insert_blameless item
  | delete => exact delete_blameless

/-- An edit that inserts what the cursor can enter keeps the session open; it fails only as far as
the cursor does not fit. -/
theorem act_recovers {edit : Edit} (h : edit.Inserts Item.OpenHere) : Recovers edit.act :=
  recovers_of_follows (fun _ => Edit.act_keeps Item.outward_openHere (fun _ hi => hi) h)
    (act_follows edit)

theorem clear_recovers : Recovers clear :=
  fun _ _ => ensures_modify.mpr ⟨Row.everywhere_nil, .place (le_refl 0)⟩

/-- Evaluation changes nothing, be there a value or not. -/
theorem evaluate_unchanged (settings : EvalSettings) (s : Session) :
    Ensures (evaluate settings) s (fun _ t => t = s) fun _ t => t = s :=
  ensures_evaluate.mpr ((meets_true _).mono (fun _ _ => rfl) fun _ _ => rfl)

/-- Replacing a row by its result evaluates first, so what cannot be evaluated is left as it is. -/
theorem replaceWithResult_spares (settings : EvalSettings) : Spares (replaceWithResult settings) := by
  intro s
  refine Ensures.bind ((evaluate_unchanged settings s).mono (fun _ _ ht => ht) fun _ _ ht _ => ht) ?_
  rintro x _ rfl
  have hreplace := replaceAll_blameless (Row.ofNumber x.denoise) (Row.ofNumber x.denoise).length
  exact spares_of_blameless (hreplace.bind fun _ => actsBlameless_pure _) _

/-- The result that replaces a row is open, so the session stays open. -/
theorem replaceWithResult_recovers (settings : EvalSettings) :
    Recovers (replaceWithResult settings) := by
  intro s hs
  refine Ensures.bind ((evaluate_unchanged settings s).mono (fun _ _ ht => ht) fun _ _ => .inl) ?_
  rintro x _ rfl
  have hopen : (Row.ofNumber x.denoise).Everywhere Item.OpenHere :=
    (Row.ofNumber_keyed x.denoise).imp Item.KeyedHere.openHere
  have hreplace := recovers_of_follows (fun _ => replaceAll_keeps hopen (le_refl _))
    fun s => replaceAll_follows (s := s) (Row.ofNumber x.denoise) (Row.ofNumber x.denoise).length
  exact (hreplace _ hs).bind fun _ _ ht => ht

/-- A key for which the user is to blame leaves the session as it was. -/
theorem strike_spares (key : Key) : Spares (strike settings key) := by
  refine strike_elim (fun edit _ => ?_) ?_ ?_ (fun e => ?_) key
  · exact spares_of_blameless (act_blameless edit)
  · exact spares_of_blameless clear_blameless
  · intro s
    exact (replaceWithResult_spares settings s).bind fun _ _ _ => trivial
  · exact spares_throw _

/-- A key leads from an open session to an open one, or leaves it as it was, or the cursor does not
fit. -/
theorem strike_recovers (key : Key) : Recovers (strike settings key) := by
  refine strike_elim (fun edit hedit => ?_) ?_ ?_ (fun e => ?_) key
  · exact act_recovers (hedit.imp Item.KeyedHere.openHere)
  · exact clear_recovers
  · intro s hs
    exact (replaceWithResult_recovers settings s hs).bind fun _ _ ht => ht
  · exact recovers_throw _

/-! ## Scripts -/

/-- The keys before one of them lead from `s` to `u`, where that key fails with `f` and leaves `t`. -/
def StopsAt (settings : EvalSettings) (keys : List Key) (s u : Session) (f : Fault) (t : Session) :
    Prop :=
  ∃ before key behind, keys = before ++ key :: behind ∧
    Ensures (before.forM (strike settings)) s (fun _ v => v = u) (fun _ _ => False) ∧
    Ensures (strike settings key) u (fun _ _ => False) fun g v => g = f ∧ v = t

/-- Keys that fail stop at one of them. -/
theorem forM_stops (keys : List Key) (s : Session) :
    Ensures (keys.forM (strike settings)) s (fun _ _ => True) fun f t =>
      ∃ u, StopsAt settings keys s u f t := by
  induction keys generalizing s with
  | nil => exact trivial
  | cons key keys ih =>
    refine ensures_bind.mpr ((ensures_ends (strike settings key) s).mono ?_ ?_)
    · intro _ t hkey
      refine (ih t).mono (fun _ _ _ => trivial) ?_
      rintro f v ⟨u, before, next, behind, rfl, hbefore, hfails⟩
      refine ⟨u, key :: before, next, behind, rfl, hkey.bind ?_, hfails⟩
      rintro _ _ ⟨-, rfl⟩
      exact hbefore
    · intro f t hfails
      exact ⟨s, [], key, keys, rfl, rfl, hfails⟩

/-- Some keys lead from an open session to an open one. -/
theorem forM_isOpen (settings : EvalSettings) (keys : List Key) (h : s.IsOpen) :
    Ensures (keys.forM (strike settings)) s (fun _ t => t.IsOpen) fun _ _ => True := by
  induction keys generalizing s with
  | nil => exact h
  | cons key keys ih =>
    refine ensures_bind.mpr ((strike_recovers key s h).mono ?_ fun _ _ _ => trivial)
    intro _ t ht
    exact ih ht

/-- Where a script stops, the last key has changed nothing, or the cursor does not fit into the window. -/
theorem StopsAt.unchanged {keys : List Key} {f : Fault} (h : StopsAt settings keys s u f t)
    (hcursor : s.path.Addresses s.root) :
    t = u ∨ f.IsMisfit ∨ ¬f.IsGuarded ∧ ¬s.root.Everywhere Item.OpenHere := by
  obtain ⟨before, key, -, -, hbefore, hfails⟩ := h
  by_cases hguarded : f.IsGuarded
  · exact .inl ((strike_spares key u).of_fails hfails hguarded)
  by_cases hopen : s.root.Everywhere Item.OpenHere
  · have hbehind := (forM_isOpen settings before ⟨hopen, hcursor⟩).and hbefore
    have hu : u.IsOpen := by
      refine (hbehind.mono ?_ fun _ _ hn => hn.2.elim).elim
      rintro _ _ ⟨ht, rfl⟩
      exact ht
    exact ((strike_recovers key u hu).of_fails hfails).imp_right .inl
  · exact .inr (.inr ⟨hguarded, hopen⟩)

/-! ## Failures -/

/-- Where the name of a key, a text, the row as an expression or arithmetic is at fault, the session is as
it was. A script stops with what the keys before the last one have made, unless the cursor does not fit into
the window, or there is a call without arguments and the fault is not the user's. A file that cannot be read
changes nothing. -/
theorem failure_unchanged (settings : EvalSettings) (h : s.path.Addresses s.root) :
    (∀ key, Ensures (strike settings key) s (fun _ _ => True) fun f t => f.IsGuarded → t = s) ∧
      (∀ text, Ensures (typeText text) s (fun _ _ => True) fun f t => f.IsGuarded → t = s) ∧
      (∀ script, Ensures (run settings script) s (fun _ _ => True) fun f t =>
        ∃ u, StopsAt settings (Key.ofScript script) s u f t ∧
          (t = u ∨ f.IsMisfit ∨ ¬f.IsGuarded ∧ ¬s.root.Everywhere Item.OpenHere)) ∧
      ∀ fileName bytes, Row.ofBytes? bytes = none →
        Ensures (load fileName bytes) s (fun _ _ => False) fun f t =>
          f = .input (.unreadableSession fileName) ∧ t = s := by
  refine ⟨fun key => strike_spares key s, fun text => ?_, fun script => ?_, fun fileName bytes hbytes => ?_⟩
  · exact typeText_elim (fun t => spares_of_blameless (insert_blameless (.token t)))
      (fun _ => spares_throw _) text s
  · refine (forM_stops (Key.ofScript script) s).mono (fun _ _ _ => trivial) ?_
    rintro f t ⟨u, hstops⟩
    exact ⟨u, hstops, hstops.unchanged h⟩
  · rw [load, hbytes]
    exact ⟨rfl, rfl⟩

/-- In the empty denominator of a fraction, where evaluation fails. -/
theorem failure_unchanged_denominator :
    let s : Session := { root := [.fraction [.digit 1] []], path := [0, 1, 0],
                         viewport := some { size := ⟨10, 3⟩ } }
    s.path.Addresses s.root ∧ Ensures (strike {} (.named "eq")) s (fun _ _ => False)
      fun f t => f = .upgrade .expectedUnit ∧ t = s := by
  intro s
  have hpath : s.path.Addresses s.root :=
    @Path.Addresses.inside s.root [] (.fraction [.digit 1] []) 0 1 [0] rfl rfl
      (@Path.Addresses.place [] 0 le_rfl)
  have hone : Derives .raised [.digit 1] (.number (.ratio 1 1)) :=
    .bare (.literal ⟨[1], none, Or.inl (by simp)⟩ (by decide))
  have hnumerator : ∀ row ∈ [[.digit 1]], ∃ e, Derives .sum row e :=
    List.forall_mem_singleton.mpr ⟨_, .lone (.single (.alone (.signed 0 hone)))⟩
  have hdenominator : Fails [] .expectedUnit := @Fails.noUnit [] [] (.start 0 []) (.inl rfl)
  have hfraction : Fails s.root .expectedUnit :=
    @Fails.inside [] [] [] _ _ [] _ (.start 0 s.root) rfl rfl hnumerator hdenominator
  have hevaluate : Ensures (evaluate {}) s (fun _ _ => False) fun f _ => f = .upgrade .expectedUnit := by
    rw [ensures_evaluate, Row.value, hfraction.ofRow_eq]
    rfl
  have hfails : Ensures (strike {} (.named "eq")) s (fun _ _ => False)
      fun f _ => f = .upgrade .expectedUnit :=
    (hevaluate.bind fun _ _ => False.elim).bind fun _ _ => False.elim
  have hkey := (failure_unchanged {} hpath).1 (.named "eq")
  refine ⟨hpath, (hfails.and hkey).mono (fun _ _ hn => hn.1) ?_⟩
  rintro _ t ⟨rfl, hsame⟩
  exact ⟨rfl, hsame (.inr (.inl ⟨_, rfl⟩))⟩

/-- A step to the left is made before the cursor, now three lines high, is found not to fit into one line;
and on the way out of a fraction the cursor enters a call without arguments before it is found to be at no
place there. -/
theorem failed_step_made :
    (Ensures (run {} "<frac><right>1") { viewport := some { size := ⟨10, 1⟩ } }
        (fun _ t => t = ⟨[.fraction [] [], .digit 1], [2], some ⟨⟨10, 1⟩, ⟨0, 1⟩⟩⟩) (fun _ _ => False) ∧
      Ensures (run {} "<frac><right>1<left>") { viewport := some { size := ⟨10, 1⟩ } }
        (fun _ _ => False) fun f t => f = .breach .cursorTooTall ∧
          t = ⟨[.fraction [] [], .digit 1], [1], some ⟨⟨10, 1⟩, ⟨0, 1⟩⟩⟩) ∧
      Ensures (run {} "<bs>") { root := [.fraction [.call .sine []] []], path := [0, 0, 0] }
        (fun _ _ => False) fun f t => f = .breach (.slotOutOfRange 0 "FunctionCall") ∧
          t = { root := [.fraction [.call .sine []] []], path := [0, 0, 0, 0, 0] } := by
  have hbefore : Key.ofScript "<frac><right>1" = [.named "frac", .named "right", .typed '1'] := by
    decide +kernel
  have hall : Key.ofScript "<frac><right>1<left>" =
      [.named "frac", .named "right", .typed '1', .named "left"] := by
    decide +kernel
  have hdelete : Key.ofScript "<bs>" = [.named "bs"] := by decide +kernel
  rw [run, run, run, hbefore, hall, hdelete]
  exact ⟨⟨rfl, rfl, rfl⟩, rfl, rfl⟩

end Session
end Mathpad
