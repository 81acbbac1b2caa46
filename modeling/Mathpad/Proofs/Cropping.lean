import Mathpad.Proofs.Painting
import Mathpad.Proofs.Visibility

/-!
# A window crops the drawing

Through a window a glyph is drawn as a whole, or not at all if it reaches beyond an edge; only
a fraction line is shortened to what lies inside. So what is written through a window are those
characters of the full drawing that are inside, moved by the offset, of glyphs that are seen
(`PlacedGlyph.mem_seen_marks`). Which is to say that the window shows a part of the full drawing
with the other glyphs left out (`Block.layouts_cropped`).
-/
set_option autoImplicit false

namespace Mathpad

/-! ## What is seen of a glyph -/

namespace PlacedGlyph

/-- The glyph lies in the window as a whole. -/
structure Inside (g : PlacedGlyph) (v : Viewport) : Prop where
  left : v.offset.x ≤ g.place.x
  right : g.right ≤ v.offset.x + v.size.width
  top : v.offset.y ≤ g.place.y
  bottom : g.bottom ≤ v.offset.y + v.size.height

/-- The glyph is not left out in the window: it lies inside, or is a fraction line. -/
def Seen (g : PlacedGlyph) (v : Viewport) : Prop :=
  g.Inside v ∨ ∃ innerWidth, g.glyph = .fraction innerWidth

/-- The strokes of a glyph through a window. -/
def seenStrokes (g : PlacedGlyph) (v : Viewport) : List Stroke :=
  Stroke.ofSeen g (v.toWindow g.place) (v.visibility (v.toWindow g.place) g.area)

variable {g : PlacedGlyph} {v : Viewport} {p : Point} {c : Char}

/-- The strokes of a glyph in a window are those of the glyph, moved by the offset. -/
theorem mem_marks_toWindow :
    (p, c) ∈ (Stroke.ofGlyph (v.toWindow g.place) g.glyph).flatMap Stroke.marks ↔
      (p.moved v.offset.x v.offset.y, c) ∈ g.marks := by
  have hmoved : (p, c) ∈ (g.moved (-v.offset.x) (-v.offset.y)).marks ↔ _ := mem_marks_moved
  rwa [Int.neg_neg, Int.neg_neg] at hmoved

/-- What lies inside is drawn as it is. -/
theorem Inside.seenStrokes (h : g.Inside v) :
    g.seenStrokes v = Stroke.ofGlyph (v.toWindow g.place) g.glyph := by
  obtain ⟨hleft, hright, htop, hbottom⟩ := h
  have hzero : ∀ {a b : Int}, a ≤ b → Viewport.excess a b = 0 := Viewport.excess_eq_zero.mpr
  rw [PlacedGlyph.right] at hright
  rw [PlacedGlyph.bottom] at hbottom
  rw [PlacedGlyph.seenStrokes, Viewport.visibility, if_pos]
  · rfl
  · simp only [Viewport.toWindow, Point.moved]
    exact ⟨hzero (by omega), hzero (by omega), hzero (by omega), hzero (by omega)⟩

/-- What does not lie inside reaches beyond an edge. -/
theorem visibility_of_not_inside (h : ¬ g.Inside v) :
    v.visibility (v.toWindow g.place) g.area =
      { clipped := true,
        invisible :=
          g.place.x + -v.offset.x + g.area.width + g.area.width < 0 ||
            g.place.y + -v.offset.y + g.area.height + g.area.height < 0 ||
            v.size.width < g.place.x + -v.offset.x || v.size.height < g.place.y + -v.offset.y,
        top := Viewport.excess 0 (g.place.y + -v.offset.y),
        bottom := Viewport.excess (g.place.y + -v.offset.y + g.area.height) v.size.height,
        left := Viewport.excess 0 (g.place.x + -v.offset.x),
        right := Viewport.excess (g.place.x + -v.offset.x + g.area.width) v.size.width } := by
  rw [Viewport.visibility, if_neg]
  · rfl
  rintro ⟨htop, hbottom, hleft, hright⟩
  simp only [Viewport.excess_eq_zero, Viewport.toWindow, Point.moved] at htop hbottom hleft hright
  exact h ⟨by omega, by rw [PlacedGlyph.right]; omega, by omega, by rw [PlacedGlyph.bottom]; omega⟩

/-- A glyph that reaches beyond an edge is left out, unless it is a fraction line. -/
theorem seenStrokes_of_not_seen (h : ¬ g.Seen v) : g.seenStrokes v = [] := by
  obtain ⟨hinside, hfraction⟩ := not_or.mp h
  rw [seenStrokes, Stroke.ofSeen, visibility_of_not_inside hinside, if_neg (not_not.mpr rfl)]
  split
  · rfl
  · split
    · rename_i innerWidth hglyph
      exact absurd ⟨innerWidth, hglyph⟩ hfraction
    · rfl

/-- Of a fraction line that reaches beyond an edge, what lies between the edges is drawn. -/
theorem mem_seen_fraction {innerWidth : Int} (hglyph : g.glyph = .fraction innerWidth)
    (harea : g.area = ⟨innerWidth, 1⟩) (h : ¬ g.Inside v) :
    (p, c) ∈ (g.seenStrokes v).flatMap Stroke.marks ↔
      v.size.Covers p ∧ (p.moved v.offset.x v.offset.y, c) ∈ g.marks := by
  obtain ⟨x, hx⟩ : ∃ x, x = g.place.x + -v.offset.x := ⟨_, rfl⟩
  obtain ⟨y, hy⟩ : ∃ y, y = g.place.y + -v.offset.y := ⟨_, rfl⟩
  have hcell : (p.moved v.offset.x v.offset.y, c) ∈ g.marks ↔
      Glyph.columnInk '-' innerWidth (p.y - y) (p.x - x) = some c := by
    rw [mem_marks, hglyph]
    show Glyph.columnInk '-' innerWidth (p.y + v.offset.y - g.place.y)
      (p.x + v.offset.x - g.place.x) = some c ↔ _
    rw [show p.y + v.offset.y - g.place.y = p.y - y by omega,
      show p.x + v.offset.x - g.place.x = p.x - x by omega]
  have hplace : v.toWindow g.place = ⟨x, y⟩ := by rw [hx, hy]; rfl
  rw [hcell, seenStrokes, Stroke.ofSeen, visibility_of_not_inside h, if_neg (not_not.mpr rfl),
    harea, hglyph, hplace, ← hx, ← hy]
  dsimp only
  have hcovers : v.size.Covers p ↔
      0 ≤ p.x ∧ p.x < v.size.width ∧ 0 ≤ p.y ∧ p.y < v.size.height :=
    ⟨fun h => ⟨h.left, h.right, h.top, h.bottom⟩, fun ⟨hl, hr, ht, hb⟩ => ⟨hl, hr, ht, hb⟩⟩
  rw [hcovers]
  -- far off, above or below, and else shortened at both ends: no branch shows a cell outside
  by_cases hinvisible : (x + innerWidth + innerWidth < 0 || y + 1 + 1 < 0 ||
      v.size.width < x || v.size.height < y) = true
  · rw [if_pos hinvisible]
    simp only [Bool.or_eq_true, decide_eq_true_eq] at hinvisible
    simp only [List.flatMap_nil, List.not_mem_nil, Glyph.columnInk]
    grind
  rw [if_neg hinvisible]
  by_cases hlow : Viewport.excess 0 y ≠ 0 ∨ Viewport.excess (y + 1) v.size.height ≠ 0
  · rw [if_pos hlow]
    simp only [List.flatMap_nil, List.not_mem_nil, Glyph.columnInk]
    simp only [ne_eq, Viewport.excess_eq_zero] at hlow
    grind
  rw [if_neg hlow]
  simp only [ne_eq, not_or, not_not, Viewport.excess_eq_zero] at hlow
  rw [Stroke.ofGlyph, Stroke.mem_line]
  simp only [ne_eq, Viewport.excess, Glyph.columnInk]
  grind

/-- What is seen through a window is what is drawn inside of it, by the glyphs that are seen. -/
theorem mem_seen_marks (hg : g.Framed) :
    (p, c) ∈ (g.seenStrokes v).flatMap Stroke.marks ↔
      v.size.Covers p ∧ (p.moved v.offset.x v.offset.y, c) ∈ g.marks ∧ g.Seen v := by
  by_cases hinside : g.Inside v
  · rw [hinside.seenStrokes, mem_marks_toWindow]
    refine ⟨fun h => ⟨?_, h, Or.inl hinside⟩, fun h => h.2.1⟩
    obtain ⟨hleft, hright, htop, hbottom⟩ := hg.covers _ ⟨c, h⟩
    obtain ⟨hleft', hright', htop', hbottom'⟩ := hinside
    simp only [Point.moved, PlacedGlyph.right, PlacedGlyph.bottom] at *
    exact ⟨by omega, by omega, by omega, by omega⟩
  -- beyond an edge there is something to see of fraction lines only
  by_cases hfraction : ∃ innerWidth, g.glyph = .fraction innerWidth
  · have hseen : g.Seen v := Or.inr hfraction
    obtain ⟨innerWidth, hglyph⟩ := hfraction
    have harea : g.area = ⟨innerWidth, 1⟩ := by rw [hg.size, hglyph]; rfl
    rw [mem_seen_fraction hglyph harea hinside, and_iff_left hseen]
  · have hseen : ¬ g.Seen v := not_or.mpr ⟨hinside, hfraction⟩
    simp [seenStrokes_of_not_seen hseen, hseen]

end PlacedGlyph

/-! ## Blocks through a window -/

namespace Block

open Canvas (cell? ofLines Consistent Depicts)

variable {b : Block} {v : Viewport}

/-- Through a window one sees the characters, within its cells, of the glyphs that are not left out.
-/
theorem mem_marks_window (h : ∀ g ∈ b.glyphs, g.Framed) {p : Point} {c : Char} :
    (p, c) ∈ b.marks (some v) ↔ v.size.Covers p ∧
      ∃ g ∈ b.glyphs, (p.moved v.offset.x v.offset.y, c) ∈ g.marks ∧ g.Seen v := by
  have hstrokes : b.marks (some v) =
      b.glyphs.flatMap fun g => (g.seenStrokes v).flatMap Stroke.marks := by
    rw [marks, Canvas.strokes, List.flatMap_assoc]
    rfl
  rw [hstrokes, List.mem_flatMap]
  constructor
  · rintro ⟨g, hg, hmark⟩
    obtain ⟨hcovers, hmark, hseen⟩ := (PlacedGlyph.mem_seen_marks (h g hg)).mp hmark
    exact ⟨hcovers, g, hg, hmark, hseen⟩
  · rintro ⟨hcovers, g, hg, hmark, hseen⟩
    exact ⟨g, hg, (PlacedGlyph.mem_seen_marks (h g hg)).mpr ⟨hcovers, hmark, hseen⟩⟩

/-- A simple glyph that is shortened or left out still consists of single characters. -/
theorem seenStrokes_single {g : PlacedGlyph} (h : g.glyph.IsSimple) :
    ∀ s ∈ g.seenStrokes v, s.Single := by
  by_cases hinside : g.Inside v
  · rw [hinside.seenStrokes]
    exact h.strokes _
  rw [PlacedGlyph.seenStrokes, PlacedGlyph.visibility_of_not_inside hinside, Stroke.ofSeen,
    if_neg (not_not.mpr rfl)]
  split
  · simp
  split
  · split
    · simp
    · exact Stroke.line_single
  · simp

/-- A tidy block is drawn through every window, with the characters that one sees. -/
theorem Tidy.draw_window (h : b.Tidy) (hframed : ∀ g ∈ b.glyphs, g.Framed) (v : Viewport) :
    Meets (b.lines (some v)) (fun lines => Depicts (ofLines lines) v.size (b.marks (some v)))
      fun _ => False := by
  have hsingle : ∀ s ∈ Canvas.strokes b (some v), s.Single := by
    intro s hs
    obtain ⟨g, hg, hs⟩ := List.mem_flatMap.mp hs
    exact seenStrokes_single (h.simple g hg) s hs
  have hconsistent : Consistent (b.marks (some v)) := by
    intro p c c' hc hc'
    obtain ⟨-, g, hg, hmark, -⟩ := (mem_marks_window hframed).mp hc
    obtain ⟨-, u, hu, hmark', -⟩ := (mem_marks_window hframed).mp hc'
    exact h.consistent _ c c' (mem_marks.mpr ⟨g, hg, hmark⟩) (mem_marks.mpr ⟨u, hu, hmark'⟩)
  refine (Canvas.putAll_depicts hsingle
    (fun p c hc => ((mem_marks_window hframed).mp hc).1) hconsistent).bind fun canvas hcanvas => ?_
  rw [meets_pure, Canvas.ofLines_toLines]
  exact hcanvas

/-- The window is filled with the part of the full drawing that begins at its offset, except for
glyphs that reach beyond an edge and are not fraction lines. -/
def CroppedTo (b : Block) (v : Viewport) : Prop :=
  ∃ full part, b.lines none = .ok full ∧ b.lines (some v) = .ok part ∧
    (part.length : Int) = v.size.height ∧ (∀ line ∈ part, (line.length : Int) = v.size.width) ∧
    ∀ p, v.size.Covers p →
      ((∃ g ∈ b.glyphs, g.Draws (p.moved v.offset.x v.offset.y) ∧ g.Seen v) →
        ∃ c, cell? (ofLines full) (p.moved v.offset.x v.offset.y) = some c ∧
          cell? (ofLines part) p = some c) ∧
      ((∀ g ∈ b.glyphs, g.Draws (p.moved v.offset.x v.offset.y) → ¬ g.Seen v) →
        cell? (ofLines part) p = some ' ')

/-- What is drawn through a window is the part of the full drawing that begins at its offset. -/
theorem Tidy.croppedTo (h : b.Tidy) (hframed : ∀ g ∈ b.glyphs, g.Framed)
    (hwidth : 0 < v.size.width) (hheight : 0 < v.size.height) : b.CroppedTo v := by
  obtain ⟨full, hfull, hdrawn⟩ := h.draw.exists_ok
  obtain ⟨part, hpart, hsized, hshown, hblank⟩ := (h.draw_window hframed v).exists_ok
  refine ⟨full, part, hfull, hpart, ?_, fun line hline => ?_, fun p hp => ⟨?_, fun hother => ?_⟩⟩
  · have hlength := hsized.height
    rw [ofLines, List.length_map] at hlength
    omega
  · have hlength := hsized.width _ (List.mem_map_of_mem hline)
    rw [String.length_toList] at hlength
    omega
  · rintro ⟨g, hg, ⟨c, hc⟩, hseen⟩
    exact ⟨c, hdrawn.shown _ c (mem_marks.mpr ⟨g, hg, hc⟩),
      hshown p c ((mem_marks_window hframed).mpr ⟨hp, g, hg, hc, hseen⟩)⟩
  · refine hblank p hp fun c hc => ?_
    obtain ⟨-, g, hg, hmark, hseen⟩ := (mem_marks_window hframed).mp hc
    exact hother g hg ⟨c, hmark⟩ hseen

end Block

/-- Two properties that are true everywhere in an expression are so together. -/
theorem Expr.everywhere_and {P Q : Expr → Prop} {e : Expr} (hP : e.Everywhere P)
    (hQ : e.Everywhere Q) : e.Everywhere fun u => P u ∧ Q u := by
  induction hP with
  | intro here _ ih =>
    obtain ⟨hQhere, hQinside⟩ := Expr.everywhere_iff.mp hQ
    exact ⟨⟨here, hQhere⟩, fun u hu => ih u hu (hQinside u hu)⟩

/-- A call has arguments. -/
def Item.HasArguments : Item → Prop
  | .call _ args => args ≠ []
  | _ => True

/-- A call has arguments. -/
def Expr.HasArguments : Expr → Prop
  | .call _ args => args ≠ []
  | _ => True

namespace Block

/-- A tidy block, and each of its glyphs drawn inside its own area. -/
def Proper (b : Block) : Prop := b.Tidy ∧ ∀ g ∈ b.glyphs, g.Framed

/-- A variable of one character is drawn inside its area. -/
theorem var_proper {name : String} (h : name.length = 1) (level : Int) :
    (ofGlyph Renderer.ascii level (.var name)).Proper :=
  have hproper : (Glyph.var name).IsProper := h
  ⟨var_tidy h level, List.forall_mem_singleton.mpr (hproper.framed level)⟩

/-- An item of one cell is drawn inside its area, a call if it has arguments. -/
theorem admits_proper {item : Item} (h : item.OneCell) (hargs : item.HasArguments) :
    Admits Proper item := by
  cases item with
  | token t =>
    cases t with
    | var name => exact var_proper h
    | digit | point | add | subtract | multiply | divide =>
      exact fun level => framed_kept.mark level h
  | call f args => exact fun hnil => absurd hnil hargs
  | sqrt | parentheses | power | fraction => trivial

/-- A node of one cell is drawn inside its area, a call if it has arguments. -/
theorem admitsNode_proper {e : Expr} (h : e.OneCell) (hargs : e.HasArguments) :
    AdmitsNode Proper e := by
  cases e with
  | number x => exact h
  | var name => exact var_proper h
  | call f args => exact fun hnil => absurd hnil hargs
  | sqrt | parentheses | power | binary => trivial

/-- Through a window of any size at any place, what is seen of a row or of an expression is a part
of the full drawing. -/
theorem layouts_cropped (v : Viewport) (hwidth : 0 < v.size.width) (hheight : 0 < v.size.height) :
    (∀ (row : Row) (path : Option Path) (level : Int), row.Everywhere Item.OneCell →
      row.Everywhere Item.HasArguments → Path.AddressesIf row path →
      ∃ b, ofRow Renderer.ascii level path row = .ok b ∧ b.CroppedTo v) ∧
    ∀ (e : Expr) (level : Int), e.Everywhere Expr.OneCell → e.Everywhere Expr.HasArguments →
      ∃ b, ofExpr Renderer.ascii level e = .ok b ∧ b.CroppedTo v := by
  refine ⟨fun row path level hrow hargs hpath => ?_, fun e level he hargs => ?_⟩
  · have hadmits : row.Everywhere (Admits Proper) := fun item hi =>
      ((hrow item hi).and (hargs item hi)).imp fun _ h => admits_proper h.1 h.2
    obtain ⟨b, hb, htidy, hframed⟩ := (framed_kept.ofRow hadmits level hpath).exists_ok
    exact ⟨b, hb, htidy.croppedTo hframed hwidth hheight⟩
  · have hadmits : e.Everywhere (AdmitsNode Proper) :=
      (Expr.everywhere_and he hargs).imp fun _ h => admitsNode_proper h.1 h.2
    obtain ⟨b, hb, htidy, hframed⟩ := (framed_kept.ofExpr hadmits level).exists_ok
    exact ⟨b, hb, htidy.croppedTo hframed hwidth hheight⟩

/-- A fraction line of which the window shows the middle. -/
theorem layouts_cropped_fraction :
    Row.Everywhere Item.OneCell [.fraction [.digit 1, .digit 2, .digit 3] [.var "x"]] ∧
    Row.Everywhere Item.HasArguments [.fraction [.digit 1, .digit 2, .digit 3] [.var "x"]] ∧
    Expr.Everywhere Expr.OneCell (.number (.ratio 123 7)) ∧
    Expr.Everywhere Expr.HasArguments (.number (.ratio 123 7)) ∧
    (∃ b, ofRow Renderer.ascii 0 none [.fraction [.digit 1, .digit 2, .digit 3] [.var "x"]] = .ok b ∧
      b.CroppedTo ⟨⟨1, 2⟩, ⟨1, 1⟩⟩) ∧
    ∃ b, ofExpr Renderer.ascii 0 (.number (.ratio 123 7)) = .ok b ∧
      b.CroppedTo ⟨⟨1, 2⟩, ⟨1, 1⟩⟩ := by
  have hdigit : ∀ n ∈ [(1 : Int), 2, 3], (Item.digit n).Everywhere Item.OneCell := by
    intro n hn
    simp only [List.mem_cons, List.not_mem_nil, or_false] at hn
    rcases hn with rfl | rfl | rfl <;> exact Item.everywhere_token ⟨by decide, by decide⟩
  have htop : Row.Everywhere Item.OneCell [.digit 1, .digit 2, .digit 3] := by
    simpa [Row.Everywhere] using hdigit
  have hbottom : Row.Everywhere Item.OneCell [.var "x"] :=
    List.forall_mem_singleton.mpr (Item.everywhere_token rfl)
  have hcells : Row.Everywhere Item.OneCell [.fraction [.digit 1, .digit 2, .digit 3] [.var "x"]] :=
    List.forall_mem_singleton.mpr (Item.everywhere_iff.mpr ⟨trivial,
      List.forall_mem_cons.mpr ⟨htop, List.forall_mem_singleton.mpr hbottom⟩⟩)
  have htoken : ∀ t : Token, (Item.token t).Everywhere Item.HasArguments :=
    fun t => Item.everywhere_token trivial
  have hargs : Row.Everywhere Item.HasArguments
      [.fraction [.digit 1, .digit 2, .digit 3] [.var "x"]] :=
    List.forall_mem_singleton.mpr (Item.everywhere_iff.mpr ⟨trivial, by
      simp [Item.slots, Row.Everywhere, Item.digit, Item.var, htoken]⟩)
  have hnumber : Expr.Everywhere Expr.OneCell (.number (.ratio 123 7)) :=
    Expr.everywhere_iff.mpr ⟨⟨rfl, rfl⟩, by simp [Expr.operands]⟩
  have hnumber' : Expr.Everywhere Expr.HasArguments (.number (.ratio 123 7)) :=
    Expr.everywhere_iff.mpr ⟨trivial, by simp [Expr.operands]⟩
  have hwindow := layouts_cropped ⟨⟨1, 2⟩, ⟨1, 1⟩⟩ zero_lt_one zero_lt_two
  exact ⟨hcells, hargs, hnumber, hnumber', hwindow.1 _ none 0 hcells hargs Path.addressesIf_none,
    hwindow.2 _ 0 hnumber hnumber'⟩

end Block
end Mathpad
