import Mathpad.Proofs.Baselines
import Mathpad.Proofs.Movements

/-!
# How wide a drawing in text is

In text the width of an item does not depend on how small it is drawn: exponents are as wide as what
stands on the line (`Block.exists_row_widths`). A row is as wide as its items together, or one column
wide if it has none (`Block.row_measured`).

In a fraction both parts have their middles on one line, rounded to a column: each begins half its own
width to the left of the middle of the wider one (`Block.fraction_glyphs`).
-/
set_option autoImplicit false

namespace Mathpad.Block

open List (Forall₂)

variable {a b : Block} {w v : Int} {level : Int}

/-- The area of the block is that of its glyphs, and so wide. -/
structure Measured (b : Block) (w : Int) : Prop where
  area : b.area = extent b.glyphs
  width : b.area.width = w

theorem Measured.nonneg (h : b.Measured w) : 0 ≤ w := by
  rw [← h.width, h.area]
  exact extent_width_nonneg

theorem Measured.height_nonneg (h : b.Measured w) : 0 ≤ b.area.height := by
  rw [h.area]
  exact extent_height_nonneg

/-! ## Notations -/

/-- A glyph of a size that is not negative. -/
theorem measured_ofGlyph {glyph : Glyph} {height : Int} (baseline : Int)
    (hsize : Renderer.ascii.size glyph level = ⟨w, height⟩) (hw : 0 ≤ w) (hheight : 0 ≤ height) :
    Measured { ofGlyph Renderer.ascii level glyph with baseline } w := by
  have hsolid : (ofGlyph Renderer.ascii level glyph).Solid :=
    ofGlyph_solid level (by rw [hsize]; exact hw) (by rw [hsize]; exact hheight)
  exact ⟨hsolid.area, congrArg Area.width hsize⟩

theorem map_width_eq {bs : List Block} {ws : List Int} (h : Forall₂ Measured bs ws) :
    bs.map (·.area.width) = ws :=
  List.forall₂_eq_eq_eq ▸ List.forall₂_map_left_iff.mpr (h.imp fun _ _ hb => hb.width)

theorem area_of_measured {bs : List Block} {ws : List Int} (h : Forall₂ Measured bs ws) :
    ∀ b ∈ bs, b.area = extent b.glyphs := by
  intro b hb
  obtain ⟨w, -, hw⟩ := exists_of_forall₂_right h.flip hb
  exact hw.area

/-- A row of blocks is as wide as they are together. -/
theorem row_measured {bs : List Block} {ws : List Int} (h : Forall₂ Measured bs ws) :
    (row bs).Measured ws.sum := by
  obtain ⟨ps, hps, hspreads⟩ := row_spreads (area_of_measured h)
  refine ⟨hspreads.area, ?_⟩
  rw [hspreads.width, totalWidth, ← map_width_eq h, ← hps, List.map_map]
  rfl

/-- Moving a block to the right moves its right end, by as much. -/
theorem moved_width_le (h : b.Measured w) {dx : Int} (hdx : 0 ≤ dx) (dy : Int) :
    (extent (b.glyphs.map (·.moved dx dy))).width ≤ w + dx := by
  have hw := h.nonneg
  refine extent_width_le_iff.mpr ⟨by omega, List.forall_mem_map.mpr fun g hg => ?_⟩
  have hright := right_le_extent hg
  rw [← h.area, h.width] at hright
  rw [PlacedGlyph.right_moved]
  omega

/-- A root is wider than what is inside by the two columns of its sign. -/
theorem Measured.root (h : b.Measured w) : (root Renderer.ascii level b).Measured (w + 2) := by
  have hw := h.nonneg
  have hheight := h.height_nonneg
  have hsize : Renderer.ascii.size (.sqrt b.area) level = ⟨w + 2, b.area.height + 1⟩ :=
    congrArg (fun n => Area.mk (n + 2) (b.area.height + 1)) h.width
  have hsign : (ofGlyph Renderer.ascii level (.sqrt b.area)).Measured (w + 2) :=
    measured_ofGlyph _ hsize (by omega) (by omega)
  have hinner := moved_width_le h (show (0 : Int) ≤ 2 by decide) 1
  rw [root_eq]
  refine ⟨rfl, ?_⟩
  show (extent (_ ++ _)).width = _
  rw [extent_append]
  show max (extent _).width (extent (b.glyphs.map _)).width = _
  rw [← hsign.area, hsign.width, max_eq_left hinner]

/-- Brackets are one column wide each. -/
theorem brackets_measured (level : Int) (h : b.Measured w) :
    (brackets Renderer.ascii level b).1.Measured 1 ∧
      (brackets Renderer.ascii level b).2.Measured 1 :=
  ⟨measured_ofGlyph _ rfl zero_le_one h.height_nonneg,
    measured_ofGlyph _ rfl zero_le_one h.height_nonneg⟩

theorem Measured.parenthesised (h : b.Measured w) :
    (parenthesised Renderer.ascii level b).Measured (1 + (w + (1 + 0))) := by
  obtain ⟨hleft, hright⟩ := brackets_measured level h
  exact row_measured (.cons hleft (.cons h (.cons hright .nil)))

/-- A call is as wide as its name, its brackets, its arguments and a comma between any two of these.
-/
theorem call_measured (f : NamedFunction) {bs : List Block} {ws : List Int}
    (h : Forall₂ Measured bs ws) : (call Renderer.ascii level f bs).Measured
      (f.name.length + (1 + ((ws.intersperse 1).sum + (1 + 0)))) := by
  have hcomma : (ofGlyph Renderer.ascii level .comma).Measured 1 :=
    measured_ofGlyph _ rfl zero_le_one zero_le_one
  have hname : (ofGlyph Renderer.ascii level (.functionName f)).Measured f.name.length :=
    measured_ofGlyph _ rfl (Int.natCast_nonneg _) zero_le_one
  have hjoined := row_measured (forall₂_intersperse hcomma h)
  obtain ⟨hleft, hright⟩ := brackets_measured level hjoined
  exact row_measured (.cons hname (.cons hleft (.cons hjoined (.cons hright .nil))))

theorem Measured.below (h : b.Measured w) (a : Block) : (b.below a).Measured w :=
  ⟨rfl, (extent_moved_width b.glyphs _).trans (h.area ▸ h.width)⟩

/-! ### Middles on one line -/

/-- Half a width is rounded down, so of two blocks with their middles on one line the narrower one
begins in the column that is the difference of the halves. -/
theorem alongCentre_glyphs (ha : a.Measured w) (hb : b.Measured v) (leader : Leader) :
    (a.alongCentre b leader).glyphs.Perm (a.glyphs.map (·.moved (max (v / 2 - w / 2) 0) 0) ++
      b.glyphs.map (·.moved (max (w / 2 - v / 2) 0) 0)) := by
  have hlook := (alongCentre_alike : (a.alongCentre b leader).Alike _).glyphs
  rwa [ha.width, hb.width] at hlook

/-- Two blocks on one centre line are as wide as the wider one. -/
theorem Measured.alongCentre (ha : a.Measured w) (hb : b.Measured v) (leader : Leader) :
    (a.alongCentre b leader).Measured (max w v) := by
  have hleft := moved_width_le ha (le_max_right (v / 2 - w / 2) 0) 0
  have hright := moved_width_le hb (le_max_right (w / 2 - v / 2) 0) 0
  refine ⟨alongCentre_alike.area.trans (extent_perm alongCentre_alike.glyphs.symm), ?_⟩
  rw [alongCentre_alike.area]
  show (extent (a.glyphs.map _ ++ b.glyphs.map _)).width = _
  rw [extent_append, ha.width, hb.width]
  dsimp only
  -- the wider one stays where it is
  have hstays : ∀ {c : Block} {n : Int}, c.Measured n →
      (extent (c.glyphs.map (·.moved 0 0))).width = n := fun hc => by
    rw [map_moved_zero, ← hc.area, hc.width]
  rcases le_total w v with hle | hle
  · rw [max_eq_right (show w / 2 - v / 2 ≤ 0 by omega), hstays hb]
    omega
  · rw [max_eq_right (show v / 2 - w / 2 ≤ 0 by omega), hstays ha]
    omega

/-- The parts of a fraction and its line. -/
theorem fraction_glyphs (level : Int) (ha : a.Measured w) (hb : b.Measured v) :
    (fraction Renderer.ascii level a b).glyphs.Perm
      (a.glyphs.map (·.moved (max (v / 2 - w / 2) 0) 0) ++
        ⟨.fraction (max w v), ⟨max w v, 1⟩, level, ⟨0, a.area.height⟩⟩ ::
          b.glyphs.map (·.moved (max (w / 2 - v / 2) 0) (a.area.height + 1))) := by
  have hw := ha.nonneg
  have hheight := ha.height_nonneg
  obtain ⟨m, hm⟩ : ∃ m, m = max w v := ⟨_, rfl⟩
  obtain ⟨stroke, hstroke⟩ : ∃ g : PlacedGlyph,
      g = ⟨.fraction m, ⟨m, 1⟩, level, ⟨0, a.area.height⟩⟩ := ⟨_, rfl⟩
  obtain ⟨line, hline⟩ : ∃ l, l = (ofGlyph Renderer.ascii level (.fraction m)).below a := ⟨_, rfl⟩
  have hmeasured : line.Measured m := by
    have hglyph : (ofGlyph Renderer.ascii level (.fraction m)).Measured m :=
      measured_ofGlyph _ rfl (by omega) zero_le_one
    exact hline ▸ hglyph.below a
  have hglyphs : line.glyphs = [stroke] := by
    rw [hline, hstroke]
    simp [Block.below, Block.moved, ofGlyph, PlacedGlyph.moved, Point.moved, Point.origin,
      Renderer.ascii]
  have hbelow : line.area.height = a.area.height + 1 := by
    have hrests : stroke.Rests := by
      rw [hstroke]
      exact ⟨le_rfl, hheight, hmeasured.nonneg, zero_le_one⟩
    rw [hmeasured.area, hglyphs, extent_singleton hrests, hstroke]
    rfl
  have hupper := alongCentre_glyphs ha hmeasured .second
  have hall := alongCentre_glyphs (ha.alongCentre hmeasured .second) (hb.below line) .first
  have hfraction : fraction Renderer.ascii level a b =
      (a.alongCentre line .second).alongCentre (b.below line) .first := by
    rw [Block.fraction, ha.width, hb.width, ← hm, hline]
  rw [hfraction, ← hm, ← hstroke]
  refine hall.trans (((hupper.map _).append_right _).trans ?_)
  -- the line is as wide as the wider part, so it and what is above it stay where they are
  rw [show max (w / 2 - m / 2) 0 = 0 by omega, show max (v / 2 - max w m / 2) 0 = 0 by omega,
    show max (m / 2 - w / 2) 0 = max (v / 2 - w / 2) 0 by omega,
    show max (max w m / 2 - v / 2) 0 = max (w / 2 - v / 2) 0 by omega, map_moved_zero,
    map_moved_zero, hglyphs, Block.below, Block.moved, map_moved_map, hbelow, Int.zero_add,
    Int.add_zero, List.append_assoc, List.singleton_append]

/-- A fraction is as wide as its wider part. -/
theorem Measured.fraction (ha : a.Measured w) (hb : b.Measured v) :
    (fraction Renderer.ascii level a b).Measured (max w v) := by
  have hw := ha.nonneg
  have hline : (ofGlyph Renderer.ascii level (.fraction (max w v))).Measured (max w v) :=
    measured_ofGlyph _ rfl (le_max_of_le_left hw) zero_le_one
  have hboth := (ha.alongCentre (hline.below a) .second).alongCentre
    (hb.below ((ofGlyph Renderer.ascii level (.fraction (max w v))).below a)) .first
  rw [Block.fraction, ha.width, hb.width]
  rwa [show max (max w (max w v)) v = max w v by omega] at hboth

/-! ## Items and rows -/

/-- What is shown of a row: the blocks of its items, or a placeholder. -/
def shown (r : Renderer) (level : Int) (bs : List Block) : List Block :=
  if bs.isEmpty then [ofGlyph r level .placeholder] else bs

/-- A row without a cursor is shown as it is, or as a placeholder. -/
theorem ofItemBlocks_nowhere (r : Renderer) (level : Int) (bs : List Block) :
    ofItemBlocks r level .nowhere bs = .ok (row (shown r level bs)) := by
  cases bs <;> rfl

/-- Whatever the level is, there is a block, and it has the width. -/
def HasWidth (draw : Int → Outcome Block) (w : Int) : Prop :=
  ∀ level, Meets (draw level) (Measured · w) fun _ => False

/-- Where each of some things is drawn in a width of its own, they all are, on every level. -/
theorem exists_widths {α : Type} {draw : Int → α → Outcome Block} {xs : List α}
    (h : ∀ x ∈ xs, ∃ w, HasWidth (draw · x) w) :
    ∃ ws, ∀ level, Meets (xs.mapM (draw level)) (Forall₂ Measured · ws) fun _ => False := by
  induction xs with
  | nil => exact ⟨[], fun _ => .nil⟩
  | cons x xs ih =>
    obtain ⟨⟨w, hw⟩, hxs⟩ := List.forall_mem_cons.mp h
    obtain ⟨ws, hws⟩ := ih hxs
    refine ⟨w :: ws, fun level => ?_⟩
    rw [List.mapM_cons]
    exact (hw level).bind fun b hb => (hws level).bind fun bs hbs => .cons hb hbs

/-- The widths of what is shown of a row. -/
def shownWidths (ws : List Int) : List Int := if ws.isEmpty then [1] else ws

/-- A row is as wide as is shown, be it a placeholder. -/
theorem shown_measured (level : Int) {bs : List Block} {ws : List Int} (h : Forall₂ Measured bs ws) :
    Forall₂ Measured (shown Renderer.ascii level bs) (shownWidths ws) := by
  cases h with
  | nil =>
    have hplaceholder : (ofGlyph Renderer.ascii level .placeholder).Measured 1 :=
      measured_ofGlyph _ rfl zero_le_one zero_le_one
    exact .cons hplaceholder .nil
  | cons hb h => exact .cons hb h

/-- The width of a row follows from those of its items. -/
theorem row_hasWidth {items : Row} (h : ∀ item ∈ items, ∃ w,
    HasWidth (ofItem Renderer.ascii · none item) w) :
    ∃ w, HasWidth (ofRow Renderer.ascii · none items) w := by
  obtain ⟨ws, hws⟩ := exists_widths h
  refine ⟨(shownWidths ws).sum, fun level => ?_⟩
  dsimp only
  rw [ofRow, Path.target, ok_bind, ofItems_nowhere]
  refine (hws level).bind fun bs hbs => ?_
  rw [ofItemBlocks_nowhere]
  exact row_measured (shown_measured level hbs)

/-- The width of an item follows from those of its rows. -/
theorem item_hasWidth {item : Item} (h : ∀ inner ∈ item.slots, ∃ w,
    HasWidth (ofRow Renderer.ascii · none inner) w) :
    ∃ w, HasWidth (ofItem Renderer.ascii · none item) w := by
  have hinto : Path.intoSlot none 0 = .ok none := rfl
  -- in characters the level changes no width, so one width is found for all levels
  cases item with
  | token t =>
    refine ⟨1, fun level => ?_⟩
    cases t <;> exact measured_ofGlyph _ rfl zero_le_one zero_le_one
  | sqrt inner =>
    obtain ⟨w, hw⟩ := h inner (by simp [Item.slots])
    refine ⟨w + 2, fun level => ?_⟩
    dsimp only
    rw [ofItem_sqrt, hinto, ok_bind]
    exact (hw level).bind fun b hb => hb.root
  | parentheses inner =>
    obtain ⟨w, hw⟩ := h inner (by simp [Item.slots])
    refine ⟨1 + (w + (1 + 0)), fun level => ?_⟩
    dsimp only
    rw [ofItem_parentheses, hinto, ok_bind]
    exact (hw level).bind fun b hb => hb.parenthesised
  | power exponent =>
    obtain ⟨w, hw⟩ := h exponent (by simp [Item.slots])
    refine ⟨w, fun level => ?_⟩
    dsimp only
    rw [ofItem_power, hinto, ok_bind]
    exact (hw (level + 1)).bind fun b hb => ⟨hb.area, hb.width⟩
  | fraction top bottom =>
    obtain ⟨w, hw⟩ := h top (by simp [Item.slots])
    obtain ⟨v, hv⟩ := h bottom (by simp [Item.slots])
    refine ⟨max w v, fun level => ?_⟩
    have hparts : Path.intoFraction none = .ok (none, none) := rfl
    dsimp only
    rw [ofItem_fraction, hparts, ok_bind]
    exact (hw level).bind fun a ha => (hv level).bind fun b hb => ha.fraction hb
  | call f args =>
    obtain ⟨ws, hws⟩ := exists_widths h
    refine ⟨f.name.length + (1 + ((ws.intersperse 1).sum + (1 + 0))), fun level => ?_⟩
    dsimp only
    rw [Block.ofItem, ofArgs_none]
    exact (hws level).bind fun bs hbs => call_measured f hbs

/-- Every item of a row has a width. -/
theorem exists_hasWidth (row : Row) : ∀ item ∈ row, ∃ w,
    HasWidth (ofItem Renderer.ascii · none item) w := by
  induction row using Row.induction_inside with
  | inside row ih =>
    exact fun item hitem => item_hasWidth fun inner hinner => row_hasWidth (ih item hitem inner hinner)

/-- A row is drawn as `b`. Its items have the widths `ws` and stand side by side; if there are none then
a placeholder is shown. -/
structure DrawnRow (level : Int) (row : Row) (ws : List Int) (b : Block) : Prop where
  drawn : ofRow Renderer.ascii level none row = .ok b
  items : ∃ bs ps, ofItems Renderer.ascii level .nowhere 0 row = .ok bs ∧
    bs.map (·.area.width) = ws ∧ ps.map Prod.fst = shown Renderer.ascii level bs ∧ b.Spreads ps

/-- The widths that are measured to move a cursor are those of the drawing, at every level. -/
theorem exists_drawnRow (row : Row) : ∃ ws, Cursor.widths Renderer.ascii row = .ok ws ∧
    ∀ level, ∃ b, DrawnRow level row ws b ∧ b.Measured (shownWidths ws).sum := by
  obtain ⟨ws, hws⟩ := exists_widths (exists_hasWidth row)
  refine ⟨ws, ?_, fun level => ?_⟩
  · obtain ⟨bs, hbs, hall⟩ := (hws 0).exists_ok
    rw [← map_width_eq hall]
    exact mapM_then hbs _
  · obtain ⟨bs, hbs, hall⟩ := (hws level).exists_ok
    have hshown := shown_measured level hall
    obtain ⟨ps, hps, hspreads⟩ := row_spreads (area_of_measured hshown)
    rw [← ofItems_nowhere Renderer.ascii level 0] at hbs
    refine ⟨_, ⟨?_, bs, ps, hbs, map_width_eq hall, hps, hspreads⟩, row_measured hshown⟩
    rw [ofRow, Path.target, ok_bind, hbs, ok_bind, ofItemBlocks_nowhere]

end Mathpad.Block
