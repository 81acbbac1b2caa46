import Mathpad.Proofs.Scrolling

/-!
# Keys in a window

A window changes nothing about an edit but that the cursor has to be shown at its end. So an edit that
fails in a window fails without it as well, or showing the cursor has failed in the session that it
leaves (`Session.Follows`); and without a window edits of what keys insert never fail. Since the
cursor is one character wide it is the height of the window only that can be too small.

A session is watched when its cursor is at a place and has been scrolled to. Every key leads from a
watched session to a watched one, whether or not it has a result, except that it may leave the cursor
cut off by both edges of the window (`Session.strike_keepsWatch`).
-/
set_option autoImplicit false

namespace Mathpad

/-- What keys insert is drawn in cells, and the cursor can enter it. -/
theorem Item.KeyedHere.admits {item : Item} (h : item.KeyedHere) : Block.Admits Block.Proper item := by
  refine Block.admits_proper ?_ ?_
  · cases item with
    | token t =>
      cases t with
      | var name =>
        obtain ⟨c, -, rfl⟩ := h
        exact String.length_singleton
      | digit value => exact h
      | _ => trivial
    | _ => trivial
  · cases item with
    | call f args => exact KeyedHere.openHere _ h
    | _ => trivial

namespace Session

open Item (KeyedHere)

variable {α β : Type} {s : Session} {size : Area}

/-! ## With and without a window -/

/-- The session without its window. -/
def windowless (s : Session) : Session := { s with viewport := none }

/-- What an action does in the session, in its window if there is one, another action does without the
window. Where the first one fails, the second one fails or the cursor could not be shown. -/
def Follows (m m' : Editing α) (s : Session) : Prop :=
  Ensures m s
    (fun a t => t.viewport.map (·.size) = s.viewport.map (·.size) ∧
      Ensures m' s.windowless (fun b u => b = a ∧ u = t.windowless) fun _ _ => False)
    fun f t => t.viewport.map (·.size) = s.viewport.map (·.size) ∧
      (Ensures m' s.windowless (fun _ _ => False) (fun _ _ => True) ∨
        Ensures showCursor t (fun _ _ => False) fun g u => g = f ∧ u = t)

/-- An action follows another one in a window if its parts do, one after the other. -/
theorem Follows.bind {m m' : Editing α} {k k' : α → Editing β} (hm : Follows m m' s)
    (hk : ∀ a t, Follows (k a) (k' a) t) : Follows (m >>= k) (m' >>= k') s := by
  refine ensures_bind.mpr (hm.mono ?_ ?_)
  · rintro a t ⟨hsize, hrun⟩
    have hthen : ∀ {Q : β → Session → Prop} {E : Fault → Session → Prop},
        Ensures (k' a) t.windowless Q E → Ensures (m' >>= k') s.windowless Q E := by
      intro Q E h
      refine Ensures.bind (hrun.mono (fun _ _ hb => hb) fun _ _ => False.elim) ?_
      rintro _ _ ⟨rfl, rfl⟩
      exact h
    refine (hk a t).mono ?_ ?_
    · rintro b u ⟨hsize', hrun'⟩
      exact ⟨hsize'.trans hsize, hthen hrun'⟩
    · rintro f u ⟨hsize', hrun'⟩
      exact ⟨hsize'.trans hsize, hrun'.imp_left hthen⟩
  · rintro f t ⟨hsize, hfails⟩
    refine ⟨hsize, hfails.imp_left fun h => ?_⟩
    exact ensures_bind.mpr (h.mono (fun _ _ => False.elim) fun _ _ _ => trivial)

/-- A computation that both actions start with. -/
theorem follows_lift {o : Outcome α} {k k' : α → Editing β} (h : ∀ a, Follows (k a) (k' a) s) :
    Follows (liftM o >>= k) (liftM o >>= k') s := by
  cases o with
  | ok a => exact h a
  | error f => exact ⟨rfl, .inl trivial⟩

theorem follows_pure (a : α) : Follows (pure a) (pure a) s := ⟨rfl, rfl, rfl⟩

/-- Without a window, showing the cursor does nothing and cannot fail. -/
theorem showCursor_follows : Follows showCursor showCursor s := by
  have hwindowless : Ensures showCursor s.windowless (fun _ u => u = s.windowless) fun _ _ => False :=
    showCursor_windowless rfl rfl
  -- a fault leaves the session as it is, so that showing the cursor would fail again
  have hstays : Ensures showCursor s
      (fun _ t => t.viewport.map (·.size) = s.viewport.map (·.size) ∧ t.windowless = s.windowless)
      fun _ t => t = s := by
    refine ensures_get ?_
    cases hview : s.viewport with
    | none => exact ⟨by rw [hview], rfl⟩
    | some v =>
      have hlift : ∀ {γ : Type} (o : Outcome γ),
          Ensures (liftM o : Editing γ) s (fun _ t => t = s) fun _ t => t = s := by
        intro γ o
        cases o <;> rfl
      refine (hlift _).bind ?_
      rintro block _ rfl
      refine (hlift _).bind ?_
      rintro seen _ rfl
      by_cases hclipped : seen.clipped = true
      · rw [if_pos hclipped]
        refine (hlift _).bind ?_
        rintro offset _ rfl
        exact ⟨rfl, rfl⟩
      · rw [if_neg hclipped]
        exact ⟨by rw [hview], rfl⟩
  unfold Follows Ensures at *
  rcases hend : Id.run (showCursor.run.run s) with ⟨f | ⟨⟩, t⟩ <;> rw [hend] at hstays <;>
    dsimp only at hstays ⊢
  · subst hstays
    rw [hend]
    exact ⟨rfl, .inr ⟨rfl, rfl⟩⟩
  · obtain ⟨hsize, hsame⟩ := hstays
    rw [hsame]
    exact ⟨hsize, rfl, rfl⟩

/-- Reading the session and writing its row or its path go on in the sessions that they give. -/
theorem follows_get {k k' : Session → Editing β} (h : Follows (k s) (k' s.windowless) s) :
    Follows (get >>= k) (get >>= k') s := h

/-- Changing the root and the path is the same with and without a window. -/
theorem follows_set {k k' : PUnit → Editing β} (root : Row) (path : Path)
    (h : Follows (k ⟨⟩) (k' ⟨⟩) { s with root, path }) :
    Follows (set { s with root, path } >>= k)
      (set { s.windowless with root, path } >>= k') s := h

/-- Going to a place changes the path and then shows the cursor. -/
theorem goTo_follows (path : Path) : Follows (goTo path) (goTo path) s :=
  showCursor_follows (s := { s with path })

/-! ## Edits -/

/-- Any movement of the cursor is the same with and without a window, as it looks at the root and
the path only. -/
theorem move_follows (movement : Cursor.Moving Unit) : Follows (move movement) (move movement) s :=
  follows_get (follows_set s.root _ (follows_lift fun _ => showCursor_follows))

theorem moveRight_follows : Follows moveRight moveRight s :=
  follows_get (move_follows (Cursor.right s.root))

theorem moveLeft_follows : Follows moveLeft moveLeft s :=
  follows_get (move_follows (Cursor.left s.root))

theorem moveVertically_follows (direction : Cursor.Direction) :
    Follows (moveVertically direction) (moveVertically direction) s :=
  follows_get (follows_lift fun target =>
    (goTo_follows (target.getD s.path)).bind fun _ _ => follows_pure _)

/-- An insertion is the same with and without a window. -/
theorem insert_follows (item : Item) : Follows (insert item) (insert item) s := by
  refine follows_get (follows_lift fun focus => follows_lift fun root => follows_set root s.path ?_)
  cases item with
  | token t => exact follows_lift fun path => goTo_follows path
  | sqrt | fraction | parentheses | power | call => exact goTo_follows _

/-- Deleting is the same with and without a window: its movements do not look at the window either.
-/
theorem deleteWithin_follows (moves : Nat) :
    Follows (deleteWithin moves) (deleteWithin moves) s := by
  induction moves generalizing s with
  | zero => exact ⟨rfl, .inl trivial⟩
  | succ moves ih =>
    refine follows_get (follows_lift fun focus => ?_)
    show Follows (if 0 < focus.place then _ else if s.path.isOuter = true then _ else _)
      (if 0 < focus.place then _ else if s.path.isOuter = true then _ else _) s
    by_cases hplace : 0 < focus.place
    · rw [if_pos hplace, if_pos hplace]
      exact follows_lift fun shorter => follows_lift fun root =>
        follows_set root s.path (follows_lift fun path => goTo_follows path)
    rw [if_neg hplace, if_neg hplace]
    by_cases houter : s.path.isOuter = true
    · rw [if_pos houter]
      exact showCursor_follows
    · rw [if_neg houter]
      exact moveRight_follows.bind fun _ _ => ih.bind fun _ _ => showCursor_follows

theorem delete_follows : Follows delete delete s :=
  follows_get (deleteWithin_follows (s.root.places + 1))

/-- Every edit is the same with and without a window. -/
theorem act_follows (edit : Edit) (s : Session) : Follows edit.act edit.act s := by
  cases edit with
  | left => exact moveLeft_follows
  | right => exact moveRight_follows
  | up => exact (moveVertically_follows .up).bind fun _ _ => follows_pure _
  | down => exact (moveVertically_follows .down).bind fun _ _ => follows_pure _
  | insert item => exact insert_follows item
  | delete => exact delete_follows

/-- Replacing the root is the same with and without a window. -/
theorem replaceAll_follows (root : Row) (place : Int) :
    Follows (replaceAll root place) (replaceAll root place) s :=
  goTo_follows (s := { s with root }) [place]

/-! ## Watched sessions -/

/-- All items are of a kind that keys insert, and the cursor is at a place that the window was scrolled
to. -/
structure Watched (size : Area) (s : Session) : Prop where
  items : s.root.Everywhere KeyedHere
  cursor : s.path.Addresses s.root
  settled : s.Settled size

/-- The cursor reaches beyond the upper and the lower edge of the window. -/
def Cut (s : Session) : Prop :=
  ∃ v g, s.viewport = some v ∧ s.cursor? = some g ∧ (g.seen v).top ≠ 0 ∧ (g.seen v).bottom ≠ 0

/-- A cursor that the window was scrolled to is not cut off by two edges. -/
theorem Settled.not_cut (h : s.Settled size) : ¬s.Cut := by
  obtain ⟨v, g, hv, -, hg, hsettled⟩ := h
  rintro ⟨w, g', hw, hg', htop, hbottom⟩
  cases hv.symm.trans hw
  cases hg.symm.trans hg'
  exact hsettled.vertical.elim htop hbottom

/-- A cursor that is cut off on both sides is two lines higher than the window. -/
theorem Cut.height (h : s.Cut) : ∃ v g, s.viewport = some v ∧ s.cursor? = some g ∧
    v.size.height + 2 ≤ g.area.height := by
  obtain ⟨v, g, hv, hg, htop, hbottom⟩ := h
  obtain ⟨htop', hbottom', -⟩ := g.seen_sides v
  rw [htop', ne_eq, Viewport.excess_eq_zero] at htop
  rw [hbottom', ne_eq, Viewport.excess_eq_zero] at hbottom
  exact ⟨v, g, hv, hg, by omega⟩

/-- A row of what keys insert is laid out, with a cursor at each of its places. -/
theorem exists_layout (hitems : s.root.Everywhere KeyedHere) (hcursor : s.path.Addresses s.root) :
    ∃ b g, Block.ofRow Renderer.ascii 0 (some s.path) s.root = .ok b ∧ b.Proper ∧
      s.cursor? = some g := by
  obtain ⟨g, hg⟩ := exists_cursor hcursor
  obtain ⟨b, hb, -⟩ := cursor?_eq_some.mp hg
  have hadmits : s.root.Everywhere (Block.Admits Block.Proper) := fun item hi =>
    (hitems item hi).imp fun _ => Item.KeyedHere.admits
  have hpath : Path.AddressesIf s.root (some s.path) := by
    rintro _ ⟨⟩
    exact hcursor
  exact ⟨b, g, hb, (Block.framed_kept.ofRow hadmits 0 hpath).of_ok hb, hg⟩

/-- Showing the cursor fails only in a window in which the cursor is cut off. -/
theorem cut_of_showCursor_fails {f : Fault} (hitems : s.root.Everywhere KeyedHere)
    (hcursor : s.path.Addresses s.root) (hwidth : 1 ≤ size.width)
    (hsize : s.viewport.map (·.size) = some size)
    (hfails : Ensures showCursor s (fun _ _ => False) fun g u => g = f ∧ u = s) :
    f = .breach .cursorTooTall ∧ s.Cut := by
  obtain ⟨b, g, -, -, hg⟩ := exists_layout hitems hcursor
  obtain ⟨v, hv, rfl⟩ := Option.map_eq_some_iff.mp hsize
  refine ((showCursor_ensures_scrolled hg hv).and hfails).mono (fun _ _ h => h.2.elim) ?_ |>.elim
  rintro _ _ ⟨⟨-, hcut⟩, rfl, -⟩
  rcases hcut with ⟨rfl, htop, hbottom⟩ | ⟨-, hleft, hright⟩
  · exact ⟨rfl, v, g, hv, hg, htop, hbottom⟩
  · -- a cursor that begins before the left edge is too narrow to end behind the right one
    obtain ⟨-, -, hleft', hright', -⟩ := g.seen_sides v
    rw [hleft', ne_eq, Viewport.excess_eq_zero] at hleft
    rw [hright', ne_eq, Viewport.excess_eq_zero, cursor?_width hg] at hright
    omega

/-- An action that never fails without a window fails only where it shows the cursor. -/
theorem Follows.ensures {P : Item → Prop} {m : Editing α} (hfollows : Follows m m s)
    (hkeeps : ∀ E, Keeps P E m) (hitems : s.root.Everywhere P) (hcursor : s.path.Addresses s.root) :
    Ensures m s (fun _ t => t.root.Everywhere P ∧ t.path.Addresses t.root) fun f t =>
      (t.root.Everywhere P ∧ t.path.Addresses t.root) ∧
        t.viewport.map (·.size) = s.viewport.map (·.size) ∧
        Ensures showCursor t (fun _ _ => False) fun g u => g = f ∧ u = t := by
  have hsound : s.Sound P fun _ => True := ⟨hitems, hcursor, fun _ _ => trivial⟩
  have hbare : s.windowless.Sound P fun _ => False := ⟨hitems, hcursor, fun hview => absurd rfl hview⟩
  refine ((hkeeps _ s hsound).and hfollows).mono (fun _ t ht => ⟨ht.1.items, ht.1.cursor⟩) ?_
  rintro f t ⟨⟨ht, -⟩, hsame, hfails | hshow⟩
  · exact (((hkeeps _ _ hbare).and hfails).mono (fun _ _ hn => hn.2) fun _ _ hn => hn.1.2).elim.elim
  · exact ⟨⟨ht.items, ht.cursor⟩, hsame, hshow⟩

/-- Where only showing the cursor can fail, a watched session remains watched or the cursor is cut
off. -/
theorem Watched.ensures {m : Editing α} (h : s.Watched size) (hwidth : 1 ≤ size.width)
    (hkeeps : ∀ E, Keeps KeyedHere E m) (hsettles : Settles m size) (hfollows : Follows m m s) :
    Ensures m s (fun _ t => t.Watched size) fun f t => f = .breach .cursorTooTall ∧ t.Cut := by
  obtain ⟨v, hv, hsize⟩ := h.settled.window
  have hview : s.viewport.map (·.size) = some size := by rw [hv, Option.map_some, hsize]
  refine ((hfollows.ensures hkeeps h.items h.cursor).and (hsettles s h.settled.window)).mono ?_ ?_
  · rintro _ t ⟨⟨hitems, hcursor⟩, hsettled⟩
    exact ⟨hitems, hcursor, hsettled⟩
  · rintro f t ⟨⟨⟨hitems, hcursor⟩, hsame, hshow⟩, -⟩
    exact cut_of_showCursor_fails hitems hcursor hwidth (hsame.trans hview) hshow

/-! ## Keys -/

/-- The action leads from watched sessions to watched ones. A fault is the user's, or the cursor is cut
off. -/
def KeepsWatch (m : Editing α) (size : Area) : Prop :=
  ∀ s : Session, s.Watched size →
    Ensures m s (fun _ t => t.Watched size) fun f t =>
      f.IsGuarded ∧ t.Watched size ∨ f = .breach .cursorTooTall ∧ t.Cut

theorem KeepsWatch.bind {m : Editing α} {k : α → Editing β} (hm : KeepsWatch m size)
    (hk : ∀ a, KeepsWatch (k a) size) : KeepsWatch (m >>= k) size :=
  fun s h => (hm s h).bind fun a t ht => hk a t ht

/-- A fault of the user leaves a watched session as it is. -/
theorem keepsWatch_throw {f : Fault} (hf : f.IsGuarded) :
    KeepsWatch (throw f : Editing α) size := fun _ h => .inl ⟨hf, h⟩

theorem keepsWatch_pure (a : α) : KeepsWatch (pure a : Editing α) size := fun _ h => h

/-- An action that can fail only where it shows the cursor. -/
theorem keepsWatch_of_follows {m : Editing α} (hwidth : 1 ≤ size.width)
    (hkeeps : ∀ E, Keeps KeyedHere E m) (hsettles : Settles m size)
    (hfollows : ∀ s, Follows m m s) : KeepsWatch m size := fun s h =>
  (h.ensures hwidth hkeeps hsettles (hfollows s)).mono (fun _ _ ht => ht) fun _ _ => .inr

/-- An empty row in a window at its start. -/
theorem watched_empty (hwidth : 1 ≤ size.width) (hheight : 1 ≤ size.height) :
    Watched size { viewport := some ⟨size, Point.origin⟩ } := by
  refine ⟨Row.everywhere_nil, .place (le_refl 0), ⟨size, Point.origin⟩,
    ⟨.cursor 1, ⟨1, 1⟩, 0, Point.origin⟩, rfl, rfl, rfl, PlacedGlyph.settled_of_seen ?_⟩
  obtain ⟨htop, hbottom, hleft, hright, hclipped⟩ := PlacedGlyph.seen_sides
    ⟨.cursor 1, ⟨1, 1⟩, 0, Point.origin⟩ ⟨size, Point.origin⟩
  rw [hclipped, htop, hbottom, hleft, hright]
  simp only [Viewport.excess_eq_zero]
  exact ⟨⟨le_rfl, hheight⟩, le_rfl, hwidth⟩

/-- Clearing a session leaves one cell for the cursor, which every window shows. -/
theorem clear_keepsWatch (hwidth : 1 ≤ size.width) (hheight : 1 ≤ size.height) :
    KeepsWatch clear size := by
  intro s h
  obtain ⟨v, hv, rfl⟩ := h.settled.window
  refine ensures_modify.mpr ?_
  rw [hv]
  exact watched_empty hwidth hheight

/-- A new root of items that keys insert is watched with the cursor at its end. -/
theorem replaceAll_keepsWatch (hwidth : 1 ≤ size.width) {root : Row}
    (hroot : root.Everywhere KeyedHere) : KeepsWatch (replaceAll root root.length) size := by
  have hsettles : Settles (replaceAll root root.length) size := fun s hs =>
    ensures_bind.mpr (ensures_modify.mpr (goTo_settles [(root.length : Int)] { s with root } hs))
  exact keepsWatch_of_follows hwidth (fun E => replaceAll_keeps hroot (le_refl _)) hsettles
    fun _ => replaceAll_follows root root.length

variable {settings : EvalSettings}

/-- The result of an evaluation consists of items that keys insert, so the session stays watched. -/
theorem replaceWithResult_keepsWatch (hwidth : 1 ≤ size.width) (hfloats : settings.useFloats = false) :
    KeepsWatch (replaceWithResult settings) size := by
  intro s h
  have hevaluate := evaluate_ensures settings (h.items.imp Item.KeyedHere.completeHere)
  refine Ensures.bind (hevaluate.mono (fun _ t ht => ht) ?_) ?_
  · rintro f t ⟨rfl, hguarded | ⟨htrue, -⟩⟩
    · exact .inl ⟨hguarded, h⟩
    · exact absurd (hfloats.symm.trans htrue) Bool.false_ne_true
  · rintro x t ⟨rfl, -⟩
    have hreplace := replaceAll_keepsWatch hwidth (Row.ofNumber_keyed x.denoise)
    exact (hreplace.bind fun _ => keepsWatch_pure x.denoise) t h

/-- Every key leads from a watched session to a watched one, or leaves the cursor cut off. -/
theorem strike_keepsWatch (hwidth : 1 ≤ size.width) (hheight : 1 ≤ size.height)
    (hfloats : settings.useFloats = false) (key : Key) : KeepsWatch (strike settings key) size := by
  refine strike_elim (motive := fun m => KeepsWatch m size) (fun edit hinserts => ?_) ?_ ?_
    (fun e => ?_) key
  · have hkeeps : ∀ E, Keeps KeyedHere E edit.act := fun _ =>
      Edit.act_keeps Item.outward_keyedHere Item.KeyedHere.openHere hinserts
    exact keepsWatch_of_follows hwidth hkeeps (act_settles edit) (act_follows edit)
  · exact clear_keepsWatch hwidth hheight
  · exact (replaceWithResult_keepsWatch hwidth hfloats).bind fun _ => keepsWatch_pure _
  · exact keepsWatch_throw (.inl ⟨_, rfl⟩)

/-- So does every script, up to the first key that fails. -/
theorem run_keepsWatch (hwidth : 1 ≤ size.width) (hheight : 1 ≤ size.height)
    (hfloats : settings.useFloats = false) (script : String) :
    KeepsWatch (run settings script) size := by
  unfold run
  generalize Key.ofScript script = keys
  induction keys with
  | nil => exact keepsWatch_pure ()
  | cons key keys ih => exact (strike_keepsWatch hwidth hheight hfloats key).bind fun _ => ih

end Session
end Mathpad
