import Mathpad.Proofs.Cropping
import Mathpad.Proofs.CursorGlyphs
import Mathpad.Proofs.LoadedRows

/-!
# Scrolling to the cursor

A window is scrolled by what it cuts off of the cursor. Along one axis this shows an interval that
was cut off on one side, if only it fits (`Viewport.excess_scrolled`); one that does not fit is then
cut off on the other side. So where showing the cursor succeeds it may be done again
(`Session.Settled.showCursor`), but it has not always shown the cursor.

Every edit shows the cursor at its end, from whatever session it starts. The cursor is one character
wide, so after an edit all of it is seen if and only if it is no higher than the window
(`Session.edit_shows_iff`). A cursor that is higher stops an edit only if it reaches beyond both
edges where the window is at that time.
-/
set_option autoImplicit false

namespace Mathpad

/-! ## One axis -/

namespace Viewport

/-- An interval from `p` on of length `n`, in a window of size `m`, that is not cut off on both sides:
scrolling by what is cut off leaves it so, and shows all of it if and only if it fits. -/
theorem excess_scrolled {p q n m : Int} (h : excess 0 p = 0 ∨ excess (p + n) m = 0)
    (hq : q = p - (excess (p + n) m - excess 0 p)) :
    (excess 0 q = 0 ∨ excess (q + n) m = 0) ∧
      ((excess 0 q = 0 ∧ excess (q + n) m = 0) ↔ n ≤ m) := by
  simp only [excess_eq_zero] at h ⊢
  rw [excess, excess] at hq
  split_ifs at hq <;> omega

end Viewport

/-! ## A glyph in a window -/

namespace PlacedGlyph

/-- How a glyph is seen through a window. -/
def seen (g : PlacedGlyph) (v : Viewport) : Visibility := v.visibility (v.toWindow g.place) g.area

/-- Scrolling has done what it can for the glyph. -/
structure Settled (g : PlacedGlyph) (v : Viewport) : Prop where
  vertical : (g.seen v).top = 0 ∨ (g.seen v).bottom = 0
  horizontal : (g.seen v).left = 0 ∨ (g.seen v).right = 0
  shown : (g.seen v).clipped = false ↔
    g.area.height ≤ v.size.height ∧ g.area.width ≤ v.size.width

variable {g : PlacedGlyph} {v : Viewport}

/-- What is cut off on each side, and that the glyph is clipped if anything is. -/
theorem seen_sides (g : PlacedGlyph) (v : Viewport) :
    (g.seen v).top = Viewport.excess 0 (v.toWindow g.place).y ∧
      (g.seen v).bottom =
        Viewport.excess ((v.toWindow g.place).y + g.area.height) v.size.height ∧
      (g.seen v).left = Viewport.excess 0 (v.toWindow g.place).x ∧
      (g.seen v).right =
        Viewport.excess ((v.toWindow g.place).x + g.area.width) v.size.width ∧
      ((g.seen v).clipped = false ↔ ((g.seen v).top = 0 ∧ (g.seen v).bottom = 0) ∧
        (g.seen v).left = 0 ∧ (g.seen v).right = 0) :=
  v.visibility_sides (v.toWindow g.place) g.area

/-- Scrolling by what is cut off settles a glyph that is not cut off on opposite sides. -/
theorem settled_scrolled {w : Viewport} (hsize : w.size = v.size)
    (hoffset : w.offset = v.offset.moved ((g.seen v).right - (g.seen v).left)
      ((g.seen v).bottom - (g.seen v).top))
    (hvertical : (g.seen v).top = 0 ∨ (g.seen v).bottom = 0)
    (hhorizontal : (g.seen v).left = 0 ∨ (g.seen v).right = 0) : g.Settled w := by
  obtain ⟨htop, hbottom, hleft, hright, -⟩ := seen_sides g v
  obtain ⟨htop', hbottom', hleft', hright', hclipped⟩ := seen_sides g w
  rw [htop, hbottom] at hvertical
  rw [hleft, hright] at hhorizontal
  rw [htop, hbottom, hleft, hright] at hoffset
  have hy := Viewport.excess_scrolled (q := (w.toWindow g.place).y) hvertical (by
    simp only [Viewport.toWindow, Point.moved, hoffset]
    omega)
  have hx := Viewport.excess_scrolled (q := (w.toWindow g.place).x) hhorizontal (by
    simp only [Viewport.toWindow, Point.moved, hoffset]
    omega)
  rw [← hsize, ← htop', ← hbottom'] at hy
  rw [← hsize, ← hleft', ← hright'] at hx
  exact ⟨hy.1, hx.1, hclipped.trans (and_congr hy.2 hx.2)⟩

/-- A glyph of which all is seen is settled. -/
theorem settled_of_seen (h : (g.seen v).clipped = false) : g.Settled v := by
  obtain ⟨htop, hbottom, hleft, hright, hclipped⟩ := seen_sides g v
  obtain ⟨⟨htop', hbottom'⟩, hleft', hright'⟩ := hclipped.mp h
  refine ⟨Or.inl htop', Or.inl hleft', iff_of_true h ?_⟩
  rw [htop, Viewport.excess_eq_zero] at htop'
  rw [hbottom, Viewport.excess_eq_zero] at hbottom'
  rw [hleft, Viewport.excess_eq_zero] at hleft'
  rw [hright, Viewport.excess_eq_zero] at hright'
  omega

end PlacedGlyph

/-! ## The cursor of a session -/

namespace Session

variable {s : Session} {v : Viewport} {g : PlacedGlyph}

/-- The glyph of the cursor, if the session can be laid out and there is one. -/
def cursor? (s : Session) : Option PlacedGlyph :=
  match Block.ofRow Renderer.ascii 0 (some s.path) s.root with
  | .ok b => b.glyphs.find? (·.glyph.isCursor)
  | .error _ => none

/-- The cursor of a session is the first glyph of a cursor in its drawing. -/
theorem cursor?_eq_some : s.cursor? = some g ↔
    ∃ b, Block.ofRow Renderer.ascii 0 (some s.path) s.root = .ok b ∧
      b.glyphs.find? (·.glyph.isCursor) = some g := by
  rw [cursor?]
  cases Block.ofRow Renderer.ascii 0 (some s.path) s.root with
  | ok b => simp
  | error f => simp

/-- Where the path leads to a place there is a cursor to show. -/
theorem exists_cursor (h : s.path.Addresses s.root) : ∃ g, s.cursor? = some g := by
  obtain ⟨f, -, hgains⟩ := Block.ofRow_gains Renderer.ascii h
  obtain ⟨plain, b, -, hb, -⟩ := hgains 0
  have hcursors := (Block.ofRow_cursors (r := Renderer.ascii) h 0).of_ok hb
  obtain ⟨g, hg, hglyph⟩ := List.countP_pos_iff.mp hcursors
  have hfound : (b.glyphs.find? (·.glyph.isCursor)).isSome = true :=
    List.find?_isSome.mpr ⟨g, hg, hglyph⟩
  obtain ⟨g', hfind⟩ := Option.isSome_iff_exists.mp hfound
  exact ⟨g', cursor?_eq_some.mpr ⟨b, hb, hfind⟩⟩

/-- A cursor is one column wide. -/
theorem cursor?_width (h : s.cursor? = some g) : g.area.width = 1 := by
  obtain ⟨b, hb, hfind⟩ := cursor?_eq_some.mp h
  have hsized := (Block.ofRow_sized s.root 0 (some s.path)).of_ok hb g (List.mem_of_find?_eq_some hfind)
  have hcursor := List.find?_some hfind
  rw [hsized]
  cases hglyph : g.glyph with
  | cursor height => rfl
  | _ => simp [hglyph, Glyph.isCursor] at hcursor

/-- Showing the cursor scrolls the window, or fails if the cursor is cut off on opposite sides. -/
theorem showCursor_ensures_scrolled (h : s.cursor? = some g) (hv : s.viewport = some v) :
    Ensures showCursor s
      (fun _ t => ∃ w, t = { s with viewport := some w } ∧ w.size = v.size ∧ g.Settled w)
      fun f t => t = s ∧
        ((f = .breach .cursorTooTall ∧ (g.seen v).top ≠ 0 ∧ (g.seen v).bottom ≠ 0) ∨
          (f = .breach .cursorTooWide ∧ (g.seen v).left ≠ 0 ∧ (g.seen v).right ≠ 0)) := by
  obtain ⟨b, hb, hfind⟩ := cursor?_eq_some.mp h
  have hseen : b.cursorVisibility (some v) = .ok (g.seen v) := by
    rw [Block.cursorVisibility, hfind]
    rfl
  refine ensures_get ?_
  rw [hv]
  refine ensures_lift_ok hb (ensures_lift_ok hseen ?_)
  by_cases hclipped : (g.seen v).clipped = true
  · rw [if_pos hclipped, scrolled]
    by_cases hvertical : (g.seen v).top ≠ 0 ∧ (g.seen v).bottom ≠ 0
    · rw [if_pos hvertical]
      exact ⟨rfl, Or.inl ⟨rfl, hvertical⟩⟩
    rw [if_neg hvertical]
    by_cases hhorizontal : (g.seen v).left ≠ 0 ∧ (g.seen v).right ≠ 0
    · rw [if_pos hhorizontal]
      exact ⟨rfl, Or.inr ⟨rfl, hhorizontal⟩⟩
    rw [if_neg hhorizontal]
    -- cut off on one side of each direction at most, the window can move there
    rw [not_and_or, not_not, not_not] at hvertical hhorizontal
    exact ⟨_, rfl, rfl, PlacedGlyph.settled_scrolled (v := v) rfl rfl hvertical hhorizontal⟩
  · rw [if_neg hclipped]
    exact ⟨v, by rw [← hv], rfl, PlacedGlyph.settled_of_seen (by simpa using hclipped)⟩

/-- A session in which scrolling has done what it can for the cursor. -/
def Settled (s : Session) (size : Area) : Prop :=
  ∃ v g, s.viewport = some v ∧ v.size = size ∧ s.cursor? = some g ∧ g.Settled v

/-- Where showing the cursor succeeds there is one, and scrolling has done what it can. -/
theorem showCursor_ensures_settled (hv : s.viewport = some v) :
    Ensures showCursor s (fun _ t => t.root = s.root ∧ t.path = s.path ∧ t.Settled v.size)
      fun _ _ => True := by
  by_cases hcursor : ∃ g, s.cursor? = some g
  · obtain ⟨g, hg⟩ := hcursor
    refine (showCursor_ensures_scrolled hg hv).mono ?_ fun _ _ _ => trivial
    rintro _ _ ⟨w, rfl, hsize, hsettled⟩
    exact ⟨rfl, rfl, w, g, rfl, hsize, hg, hsettled⟩
  · -- without a cursor the window is not looked at
    refine ensures_get ?_
    rw [hv]
    cases hb : Block.ofRow Renderer.ascii 0 (some s.path) s.root with
    | error f => trivial
    | ok b =>
      cases hfind : b.glyphs.find? (·.glyph.isCursor) with
      | some g => exact absurd ⟨g, cursor?_eq_some.mpr ⟨b, hb, hfind⟩⟩ hcursor
      | none =>
        have hseen : b.cursorVisibility (some v) = .error (.breach .cursorNotDrawn) := by
          rw [Block.cursorVisibility, hfind]
        exact ensures_lift_ok rfl (ensures_lift_error hseen trivial)

/-- In a settled session the cursor can be shown once more. -/
theorem Settled.showCursor {size : Area} (h : s.Settled size) :
    Ensures showCursor s (fun _ t => t.root = s.root ∧ t.path = s.path ∧ t.Settled size)
      fun _ _ => False := by
  obtain ⟨v, g, hv, rfl, hg, hsettled⟩ := h
  refine (showCursor_ensures_scrolled hg hv).mono ?_ ?_
  · rintro _ _ ⟨w, rfl, hsize, hsettled⟩
    exact ⟨rfl, rfl, w, g, rfl, hsize, hg, hsettled⟩
  · rintro f _ ⟨rfl, ⟨-, htop, hbottom⟩ | ⟨-, hleft, hright⟩⟩
    · exact hsettled.vertical.elim htop hbottom
    · exact hsettled.horizontal.elim hleft hright

/-- Where the cursor has been shown it can be shown once more. -/
theorem showCursor_again (s : Session) :
    Ensures showCursor s
      (fun _ t => t.root = s.root ∧ t.path = s.path ∧
        Ensures showCursor t (fun _ u => u.root = t.root ∧ u.path = t.path) fun _ _ => False)
      fun _ _ => True := by
  cases hv : s.viewport with
  | none => exact showCursor_windowless hv ⟨rfl, rfl, showCursor_windowless hv ⟨rfl, rfl⟩⟩
  | some v =>
    refine (showCursor_ensures_settled hv).imp fun _ t ht => ⟨ht.1, ht.2.1, ?_⟩
    exact ht.2.2.showCursor.imp fun _ u hu => ⟨hu.1, hu.2.1⟩

/-! ## Edits -/

/-- The action leaves a settled session, whatever session with a window of that size it starts from,
if it does not fail. -/
def Settles {α : Type} (m : Editing α) (size : Area) : Prop :=
  ∀ s : Session, (∃ v, s.viewport = some v ∧ v.size = size) →
    Ensures m s (fun _ t => t.Settled size) fun _ _ => True

variable {size : Area}

/-- A settled session has a window of the given size. -/
theorem Settled.window (h : s.Settled size) : ∃ v, s.viewport = some v ∧ v.size = size := by
  obtain ⟨v, -, hv, hsize, -⟩ := h
  exact ⟨v, hv, hsize⟩

/-- Showing the cursor settles the session, by scrolling until the cursor is seen or cut off by two
edges. -/
theorem showCursor_settles : Settles showCursor size := by
  rintro s ⟨v, hv, rfl⟩
  exact (showCursor_ensures_settled hv).imp fun _ _ ht => ht.2.2

/-- Going to a place settles the session, as it ends by showing the cursor. -/
theorem goTo_settles (path : Path) : Settles (goTo path) size :=
  fun s hs => showCursor_settles { s with path } hs

/-- A movement settles the session, as it ends by showing the cursor. -/
theorem move_settles (movement : Cursor.Moving Unit) : Settles (move movement) size := by
  intro s hs
  refine ensures_get ?_
  obtain ⟨result, path⟩ := Id.run (movement.run.run s.path)
  exact ensures_set (ensures_lift_any fun _ => showCursor_settles { s with path } hs)

theorem moveRight_settles : Settles moveRight size :=
  fun s hs => ensures_get (move_settles (Cursor.right s.root) s hs)

theorem moveLeft_settles : Settles moveLeft size :=
  fun s hs => ensures_get (move_settles (Cursor.left s.root) s hs)

theorem moveVertically_settles (direction : Cursor.Direction) :
    Settles (moveVertically direction) size := fun s hs =>
  ensures_get (ensures_lift_any fun _ => (goTo_settles _ s hs).bind fun _ _ ht => ht)

/-- An insertion settles the session, as it ends with a movement. -/
theorem insert_settles (item : Item) : Settles (insert item) size := by
  intro s hs
  refine ensures_get (ensures_lift_any fun focus => ensures_lift_any fun root => ensures_set ?_)
  have hgoTo := fun path => goTo_settles path { s with root } hs
  cases item with
  | token t => exact ensures_lift_any hgoTo
  | sqrt | fraction | parentheses | power | call => exact hgoTo _

/-- Deleting settles the session, however far it goes back. -/
theorem deleteWithin_settles (moves : Nat) : Settles (deleteWithin moves) size := by
  induction moves with
  | zero => exact fun s hs => trivial
  | succ moves ih =>
    intro s hs
    refine ensures_get (ensures_lift_any fun focus => ?_)
    by_cases hplace : 0 < focus.place
    · rw [if_pos hplace]
      refine ensures_lift_any fun shorter => ensures_lift_any fun root => ensures_set ?_
      exact ensures_lift_any fun path => goTo_settles path { s with root } hs
    rw [if_neg hplace]
    by_cases houter : s.path.isOuter = true
    · rw [if_pos houter]
      exact showCursor_settles s hs
    rw [if_neg houter]
    refine (moveRight_settles s hs).bind fun _ t ht => ?_
    refine (ih t ht.window).bind fun _ u hu => ?_
    exact hu.showCursor.mono (fun _ _ hw => hw.2.2) fun _ _ _ => trivial

theorem delete_settles : Settles delete size :=
  fun s hs => ensures_get (deleteWithin_settles (s.root.places + 1) s hs)

/-- Every edit settles the session. -/
theorem act_settles (edit : Edit) : Settles edit.act size := by
  cases edit with
  | left => exact moveLeft_settles
  | right => exact moveRight_settles
  | up => exact fun s hs => (moveVertically_settles .up s hs).bind fun _ _ ht => ht
  | down => exact fun s hs => (moveVertically_settles .down s hs).bind fun _ _ ht => ht
  | insert item => exact insert_settles item
  | delete => exact delete_settles

/-- After an edit that does not fail, in a window of whatever size and whatever it shows, all of the
cursor is seen if and only if it is no higher than the window. -/
theorem edit_shows_iff (edit : Edit) (hv : s.viewport = some v) (hwidth : 0 < v.size.width) :
    Ensures edit.act s
      (fun _ t => ∃ w g, t.viewport = some w ∧ w.size = v.size ∧ t.cursor? = some g ∧
        ((g.seen w).clipped = false ↔ g.area.height ≤ v.size.height))
      fun _ _ => True := by
  refine (act_settles edit s ⟨v, hv, rfl⟩).imp ?_
  rintro _ t ⟨w, g, hw, hsize, hg, hsettled⟩
  refine ⟨w, g, hw, hsize, hg, ?_⟩
  rw [hsettled.shown, cursor?_width hg, hsize]
  exact and_iff_left hwidth

/-- A step to the right out of an empty fraction, in a window of two lines. -/
theorem edit_shows_iff_right :
    0 < (10 : Int) ∧ Ensures Edit.right.act
      { root := [.fraction [] []], path := [0, 0, 0], viewport := some { size := ⟨10, 2⟩ } }
      (fun _ t => ∃ w g, t.viewport = some w ∧ w.size = ⟨10, 2⟩ ∧ t.cursor? = some g ∧
        ((g.seen w).clipped = false ↔ g.area.height ≤ 2))
      fun _ _ => True :=
  have hwidth : 0 < (10 : Int) := by decide
  ⟨hwidth, edit_shows_iff (v := { size := ⟨10, 2⟩ }) .right rfl hwidth⟩

/-- Behind the fraction the cursor is three lines high. It reaches beyond the lower edge only, and
when the window has been scrolled down it reaches beyond the upper one. -/
theorem right_of_fraction_clipped :
    Ensures (perform [.insert (.fraction [] []), .right]) { viewport := some { size := ⟨10, 2⟩ } }
      (fun _ t => ∃ w g, t.viewport = some w ∧ t.cursor? = some g ∧ (g.seen w).clipped = true)
      fun _ _ => False := by
  have hinsert : Ensures (Edit.insert (.fraction [] [])).act
      { viewport := some { size := ⟨10, 2⟩ } }
      (fun _ t => t = ⟨[.fraction [] []], [0, 0, 0], some ⟨⟨10, 2⟩, ⟨0, 0⟩⟩⟩)
      fun _ _ => False := rfl
  have hright : Ensures Edit.right.act ⟨[.fraction [] []], [0, 0, 0], some ⟨⟨10, 2⟩, ⟨0, 0⟩⟩⟩
      (fun _ t => t = ⟨[.fraction [] []], [1], some ⟨⟨10, 2⟩, ⟨0, 1⟩⟩⟩) fun _ _ => False := rfl
  refine hinsert.bind ?_
  rintro _ _ rfl
  refine hright.bind ?_
  rintro _ _ rfl
  exact ⟨⟨⟨10, 2⟩, ⟨0, 1⟩⟩, ⟨.cursor 3, ⟨1, 3⟩, 0, ⟨1, 0⟩⟩, rfl, by decide +kernel, rfl⟩

end Session
end Mathpad
