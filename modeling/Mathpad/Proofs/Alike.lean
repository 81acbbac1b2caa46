import Mathlib.Data.List.Forall2
import Mathpad.Drawing.Notation
import Mathpad.Drawing.OfExpr
import Mathpad.Proofs.Extents

/-!
# Blocks that look alike

Two blocks are `Alike` when they have the same glyphs at the same places, be it in another order,
the same baseline and the same area. Every way of putting blocks together respects this, so that
laws for it can be used inside a drawing.

Of two blocks side by side, each moves down by as much as its baseline lies above the lower one
(`beside_alike`); a base moves down by the height of its superscript (`beside_superscript`). So
blocks on one baseline may be put together in any grouping (`beside_assoc`), an exponent is a
superscript (`raised_eq`), and an operation is its operator between its operands (`joined_eq`).
-/
set_option autoImplicit false

namespace Mathpad.Block

/-- The same glyphs, on the same baseline, of the same size, for the same use. -/
structure Alike (a b : Block) : Prop where
  glyphs : a.glyphs.Perm b.glyphs
  baseline : a.baseline = b.baseline
  area : a.area = b.area
  special : a.special = b.special

namespace Alike

variable {a b c : Block}

theorem refl (a : Block) : a.Alike a := ⟨.refl _, rfl, rfl, rfl⟩

theorem symm (h : a.Alike b) : b.Alike a :=
  ⟨h.glyphs.symm, h.baseline.symm, h.area.symm, h.special.symm⟩

theorem trans (h : a.Alike b) (h' : b.Alike c) : a.Alike c :=
  ⟨h.glyphs.trans h'.glyphs, h.baseline.trans h'.baseline, h.area.trans h'.area,
    h.special.trans h'.special⟩

end Alike

/-- For blocks that are put together, the area follows from the glyphs. -/
theorem ofGlyphs_alike {gs hs : List PlacedGlyph} (h : gs.Perm hs) (baseline : Int) :
    (ofGlyphs gs baseline).Alike (ofGlyphs hs baseline) :=
  ⟨h, rfl, extent_perm h, rfl⟩

variable {a a' b b' c : Block}

/-! ## Putting alike blocks together -/

namespace Alike

/-- What looks like a solid block is one. -/
theorem solid (h : a.Alike b) (ha : a.Solid) : b.Solid where
  glyphs g hg := ha.glyphs g (h.glyphs.mem_iff.mpr hg)
  baseline := h.baseline ▸ ha.baseline
  area := by rw [← h.area, ha.area, extent_perm h.glyphs]
  ne_nil hnil := ha.ne_nil (List.perm_nil.mp (hnil ▸ h.glyphs))

theorem moved (h : a.Alike b) (dx dy : Int) : (a.moved dx dy).Alike (b.moved dx dy) :=
  ⟨h.glyphs.map _, congrArg (· + dy) h.baseline, extent_perm (h.glyphs.map _), h.special⟩

/-- Alike blocks are alike to the right of alike blocks. -/
theorem rightOf (hb : b.Alike b') (ha : a.Alike a') : (b.rightOf a).Alike (b'.rightOf a') := by
  rw [Block.rightOf, Block.rightOf, ha.area]
  exact hb.moved _ 0

theorem below (hb : b.Alike b') (ha : a.Alike a') : (b.below a).Alike (b'.below a') := by
  rw [Block.below, Block.below, ha.area]
  exact hb.moved 0 _

/-- Alike blocks are alike when they are laid over each other. -/
theorem overlay (ha : a.Alike a') (hb : b.Alike b') (leader : Leader) :
    (a.overlay b leader).Alike (a'.overlay b' leader) := by
  have hbaseline : leader.baseline a b = leader.baseline a' b' := by
    cases leader with
    | first => exact ha.baseline
    | second => exact hb.baseline
  rw [Block.overlay, Block.overlay, hbaseline]
  exact ofGlyphs_alike (ha.glyphs.append hb.glyphs) _

/-- Alike blocks are alike on one baseline: how far each is moved down depends on their baselines
only. -/
theorem alongBaseline (ha : a.Alike a') (hb : b.Alike b') :
    (a.alongBaseline b).Alike (a'.alongBaseline b') := by
  unfold Block.alongBaseline
  rw [ha.baseline, hb.baseline, hb.special, hb.area]
  by_cases hsuper : b'.special.superscript = true
  · rw [if_pos hsuper, if_pos hsuper]
    exact (ha.moved 0 _).overlay hb .first
  rw [if_neg hsuper, if_neg hsuper]
  by_cases hlow : a'.baseline < b'.baseline
  · rw [if_pos hlow, if_pos hlow]
    dsimp only
    rw [ha.baseline, hb.baseline]
    exact ofGlyphs_alike ((ha.moved 0 _).glyphs.append hb.glyphs) _
  · rw [if_neg hlow, if_neg hlow]
    dsimp only
    rw [ha.baseline, hb.baseline]
    exact ofGlyphs_alike ((hb.moved 0 _).glyphs.append ha.glyphs) _

/-- Alike blocks are alike on one centre line: how far each is moved depends on their widths only.
-/
theorem alongCentre (ha : a.Alike a') (hb : b.Alike b') (leader : Leader) :
    (a.alongCentre b leader).Alike (a'.alongCentre b' leader) := by
  have hbaseline : leader.baseline a b = leader.baseline a' b' := by
    cases leader with
    | first => exact ha.baseline
    | second => exact hb.baseline
  unfold Block.alongCentre
  rw [ha.area, hb.area, hbaseline]
  by_cases hnarrow : a'.area.width / 2 - b'.area.width / 2 < 0
  · simp only [hnarrow, if_true]
    exact ofGlyphs_alike ((ha.moved _ 0).glyphs.append hb.glyphs) _
  · simp only [hnarrow, if_false]
    exact ofGlyphs_alike ((hb.moved _ 0).glyphs.append ha.glyphs) _

end Alike

/-! ## Side by side -/

/-- Two blocks side by side, each moved down from the top by a length of its own. -/
def abreast (a b : Block) (down down' baseline : Int) : Block :=
  ofGlyphs (a.glyphs.map (·.moved 0 down) ++ b.glyphs.map (·.moved a.area.width down')) baseline

/-- The area of two blocks side by side. -/
theorem Solid.abreast_area (ha : a.Solid) (hb : b.Solid) {down down' : Int} (hdown : 0 ≤ down)
    (hdown' : 0 ≤ down') (baseline : Int) :
    (abreast a b down down' baseline).area =
      ⟨a.area.width + b.area.width, max (a.area.height + down) (b.area.height + down')⟩ := by
  have hleft := ha.area_moved le_rfl hdown
  have hright := hb.area_moved ha.width_nonneg hdown'
  have hwide := hb.width_nonneg
  show extent ((a.moved 0 down).glyphs ++ (b.moved a.area.width down').glyphs) = _
  rw [extent_append, ← (ha.moved le_rfl hdown).area, ← (hb.moved ha.width_nonneg hdown').area,
    hleft, hright]
  exact congrArg₂ Area.mk (by dsimp only; omega) rfl

theorem moved_moved (x y z w : Int) :
    ((b.moved x y).moved z w).glyphs = b.glyphs.map (·.moved (x + z) (y + w)) := by
  simp only [moved, List.map_map]
  exact List.map_congr_left fun g _ => g.moved_moved x y z w

theorem map_moved_zero (gs : List PlacedGlyph) : gs.map (·.moved 0 0) = gs := by
  simp

/-- On one baseline, each block moves down by as much as its own is above the lower one. -/
theorem beside_alike (h : b.special.superscript = false) :
    (a.beside b).Alike (abreast a b (max a.baseline b.baseline - a.baseline)
      (max a.baseline b.baseline - b.baseline) (max a.baseline b.baseline)) := by
  have hbase : (b.rightOf a).baseline = b.baseline := Int.add_zero _
  have hspecial : (b.rightOf a).special.superscript = false := h
  unfold beside alongBaseline
  rw [if_neg (by simp [hspecial]), hbase]
  by_cases hlow : a.baseline < b.baseline
  · rw [if_pos hlow, max_eq_right hlow.le, Int.sub_self]
    dsimp only
    rw [hbase]
    exact .refl _
  · rw [if_neg hlow, max_eq_left (not_lt.mp hlow), Int.sub_self]
    dsimp only
    rw [hbase, rightOf, moved_moved, Int.add_zero, Int.zero_add, abreast, map_moved_zero]
    exact ofGlyphs_alike List.perm_append_comm _

/-- A superscript stands on the right of its base, which moves down by its height. -/
theorem beside_superscript (hb : b.area = extent b.glyphs) (h : b.special.superscript = true) :
    a.beside b = abreast a b b.area.height 0 (a.baseline + b.area.height) := by
  have hspecial : (b.rightOf a).special.superscript = true := h
  have hheight : (b.rightOf a).area.height = b.area.height := by
    rw [hb]
    exact extent_moved_height b.glyphs _
  unfold beside alongBaseline
  rw [if_pos hspecial, hheight]
  rfl

/-- The width of two blocks side by side is the sum of their widths. -/
theorem Solid.beside_width (ha : a.Solid) (hb : b.Solid) :
    (a.beside b).area.width = a.area.width + b.area.width := by
  cases hsuper : b.special.superscript with
  | false =>
    rw [(beside_alike hsuper).area, ha.abreast_area hb (by omega) (by omega)]
  | true =>
    rw [beside_superscript hb.area hsuper, ha.abreast_area hb hb.height_nonneg le_rfl]

theorem Alike.beside (ha : a.Alike a') (hb : b.Alike b') : (a.beside b).Alike (a'.beside b') :=
  ha.alongBaseline (hb.rightOf ha)

theorem map_moved_map (gs : List PlacedGlyph) (x y z w : Int) :
    (gs.map (·.moved x y)).map (·.moved z w) = gs.map (·.moved (x + z) (y + w)) := by
  rw [List.map_map]
  exact List.map_congr_left fun g _ => g.moved_moved x y z w

/-- Three blocks side by side, each moved down from the top by a length of its own. -/
def abreast₃ (a b c : Block) (down down' down'' baseline : Int) : Block :=
  ofGlyphs (a.glyphs.map (·.moved 0 down) ++ (b.glyphs.map (·.moved a.area.width down') ++
    c.glyphs.map (·.moved (a.area.width + b.area.width) down''))) baseline

theorem Solid.on (h : b.Solid) {baseline : Int} (hbaseline : 0 ≤ baseline) :
    ({ b with baseline } : Block).Solid :=
  ⟨⟨h.glyphs, hbaseline, h.area⟩, h.ne_nil⟩

theorem Solid.superscript (h : b.Solid) : (superscript b).Solid :=
  ⟨⟨h.glyphs, h.baseline, h.area⟩, h.ne_nil⟩

section Abreast

variable {x : Block} {down down' baseline down₁ down₂ baseline' : Int}

/-- Three blocks side by side can be put together from the left. -/
theorem abreast_left (hx : x.Alike (abreast a b down down' baseline))
    (hwidth : x.area.width = a.area.width + b.area.width) :
    (abreast x c down₁ down₂ baseline').Alike
      (abreast₃ a b c (down + down₁) (down' + down₁) down₂ baseline') := by
  refine ofGlyphs_alike ?_ baseline'
  rw [hwidth]
  refine ((hx.glyphs.map _).append_right _).trans ?_
  rw [abreast, ofGlyphs, List.map_append, map_moved_map, map_moved_map, List.append_assoc,
    Int.add_zero, Int.add_zero]

/-- Three blocks side by side can be put together from the right. -/
theorem abreast_right (hx : x.Alike (abreast b c down down' baseline)) :
    (abreast a x down₁ down₂ baseline').Alike
      (abreast₃ a b c down₁ (down + down₂) (down' + down₂) baseline') := by
  refine ofGlyphs_alike (((hx.glyphs.map _).append_left _).trans ?_) baseline'
  rw [abreast, ofGlyphs, List.map_append, map_moved_map, map_moved_map, Int.zero_add,
    Int.add_comm b.area.width]

end Abreast

/-- On one baseline it does not matter which blocks are put together first. -/
theorem beside_assoc (ha : a.Solid) (hb : b.Solid) (hsuper : b.special.superscript = false)
    (hsuper' : c.special.superscript = false) :
    ((a.beside b).beside c).Alike (a.beside (b.beside c)) := by
  have hleft := beside_alike (a := a) hsuper
  have hright := beside_alike (a := b) hsuper'
  have hlow : (a.beside b).baseline = max a.baseline b.baseline := hleft.baseline
  have hlow' : (b.beside c).baseline = max b.baseline c.baseline := hright.baseline
  have hfirst := (beside_alike (a := a.beside b) hsuper').trans
    (abreast_left hleft (ha.beside_width hb))
  have hsecond := (beside_alike (a := a) (b := b.beside c) (by rw [hright.special]; rfl)).trans
    (abreast_right hright)
  refine hfirst.trans (Alike.symm ?_)
  -- both ways, every block goes down to the lowest of the three baselines
  rw [hlow]
  rw [hlow'] at hsecond
  convert hsecond using 2 <;> omega

/-- A superscript may be put to its base before anything that is not lower stands on the left. -/
theorem beside_raised (ha : a.Solid) (hb : b.Solid) (hc : c.Solid)
    (hsuper : b.special.superscript = false) (hlow : a.baseline ≤ b.baseline) :
    ((a.beside b).beside (superscript c)).Alike (a.beside (b.beside (superscript c))) := by
  have hleft := beside_alike (a := a) hsuper
  have hright := beside_superscript (a := b) hc.superscript.area rfl
  have hheight := hc.height_nonneg
  have hbase : (a.beside b).baseline = b.baseline := hleft.baseline.trans (max_eq_right hlow)
  have hbase' : (b.beside (superscript c)).baseline = b.baseline + c.area.height := by
    rw [hright]
    rfl
  -- the base goes down by the height of the exponent, and so does all that is on its baseline
  have hraised : (b.beside (superscript c)).Alike
      (abreast b (superscript c) c.area.height 0 (b.baseline + c.area.height)) := by
    rw [hright]
    exact .refl _
  have hfirst : ((a.beside b).beside (superscript c)).Alike (abreast₃ a b (superscript c)
      (max a.baseline b.baseline - a.baseline + c.area.height)
      (max a.baseline b.baseline - b.baseline + c.area.height) 0 (b.baseline + c.area.height)) := by
    rw [beside_superscript hc.superscript.area rfl, hbase]
    exact abreast_left hleft (ha.beside_width hb)
  have hsecond := (beside_alike (a := a) (b := b.beside (superscript c))
    (by rw [hraised.special]; rfl)).trans (abreast_right hraised)
  refine hfirst.trans (Alike.symm ?_)
  rw [hbase'] at hsecond
  convert hsecond using 2 <;> omega

/-- A base with its exponent is the base with a superscript beside it. -/
theorem raised_eq (ha : a.Solid) (hb : b.Solid) : raised a b = a.beside (superscript b) := by
  have hwidth : (a.moved 0 b.area.height).area.width = a.area.width := by
    rw [ha.area_moved le_rfl hb.height_nonneg, Int.add_zero]
  rw [beside_superscript hb.superscript.area rfl]
  show (a.moved 0 b.area.height).overlay
    (b.moved (a.moved 0 b.area.height).area.width 0) .first = _
  rw [hwidth]
  rfl

/-- An operation is its operator between its operands. -/
theorem joined_eq {r : Renderer} {level : Int} {op : BinaryOp} (ha : a.Solid)
    (hop : (ofGlyph r level (operatorGlyph op)).Solid) :
    joined r level op a b = (a.beside (ofGlyph r level (operatorGlyph op))).beside b := by
  have hwidth : ((ofGlyph r level (operatorGlyph op)).rightOf a).area.width =
      (a.beside (ofGlyph r level (operatorGlyph op))).area.width := by
    rw [ha.beside_width hop, rightOf, hop.area_moved ha.width_nonneg le_rfl, Int.add_comm]
  show (a.beside _).alongBaseline (b.moved _ 0) = (a.beside _).alongBaseline (b.moved _ 0)
  rw [hwidth]

/-! ## One below the other -/

/-- On a common centre line, each block moves right by as much as its own is left of the other. -/
theorem alongCentre_alike {leader : Leader} :
    (a.alongCentre b leader).Alike
      (ofGlyphs ((a.moved (max (b.area.width / 2 - a.area.width / 2) 0) 0).glyphs ++
        (b.moved (max (a.area.width / 2 - b.area.width / 2) 0) 0).glyphs)
        (leader.baseline a b)) := by
  unfold alongCentre
  by_cases hnarrow : a.area.width / 2 - b.area.width / 2 < 0
  · simp only [hnarrow, if_true]
    rw [max_eq_right hnarrow.le, max_eq_left (by omega), Int.neg_sub]
    simp only [moved, map_moved_zero]
    exact .refl _
  · simp only [hnarrow, if_false]
    rw [max_eq_left (not_lt.mp hnarrow), max_eq_right (by omega)]
    simp only [moved, map_moved_zero]
    exact ofGlyphs_alike List.perm_append_comm _

/-- Two blocks on one centre line are as high as the higher one. -/
theorem Solid.alongCentre_height (ha : a.Solid) (hb : b.Solid) (leader : Leader) :
    (a.alongCentre b leader).area.height = max a.area.height b.area.height := by
  have hleft := ha.area_moved (le_max_right (b.area.width / 2 - a.area.width / 2) 0) le_rfl
  have hright := hb.area_moved (le_max_right (a.area.width / 2 - b.area.width / 2) 0) le_rfl
  rw [alongCentre_alike.area]
  show (extent (_ ++ _)).height = _
  rw [extent_append]
  show max (Block.moved a _ 0).area.height (Block.moved b _ 0).area.height = _
  rw [hleft, hright, Int.add_zero, Int.add_zero]

/-! ## Notations -/

/-- The contents of a root stand two columns to the right and one line below. -/
theorem root_eq (level : Int) (b : Block) :
    root Renderer.ascii level b =
      (ofGlyph Renderer.ascii level (.sqrt b.area)).overlay (b.moved 2 1) .second := by
  show (ofGlyph Renderer.ascii level (.sqrt b.area)).overlay (b.moved
    (b.area.width + 2 - b.area.width - 0) (b.area.height + 1 - b.area.height)) .second = _
  rw [show b.area.width + 2 - b.area.width - 0 = 2 by omega,
    show b.area.height + 1 - b.area.height = 1 by omega]

/-- A root of a solid block is solid. -/
theorem Solid.root (level : Int) (h : b.Solid) : (root Renderer.ascii level b).Solid := by
  have hwidth := h.width_nonneg
  have hheight := h.height_nonneg
  have hsign : (ofGlyph Renderer.ascii level (.sqrt b.area)).Solid := by
    refine ofGlyph_solid level ?_ ?_
    · show 0 ≤ b.area.width + 2
      omega
    · show 0 ≤ b.area.height + 1
      omega
  rw [root_eq]
  exact hsign.toSnug.overlay (h.moved (by decide) zero_le_one) .second

/-- A fraction of solid blocks is solid. -/
theorem Solid.fraction (level : Int) (ha : a.Solid) (hb : b.Solid) :
    (fraction Renderer.ascii level a b).Solid := by
  have hstroke : (ofGlyph Renderer.ascii level
      (.fraction (max a.area.width b.area.width))).Solid :=
    ofGlyph_solid level (le_max_of_le_left ha.width_nonneg) zero_le_one
  have hline := hstroke.below ha.toSnug
  exact (ha.alongCentre hline .second).alongCentre (hb.below hline.toSnug) .first

/-- The first block of a row stays where it is. -/
theorem empty_beside_glyphs (h : b.Solid) : (empty.beside b).glyphs.Perm b.glyphs := by
  cases hsuper : b.special.superscript with
  | false =>
    have hbaseline := h.baseline
    refine (beside_alike hsuper).glyphs.trans ?_
    show (([] : List PlacedGlyph) ++ b.glyphs.map (·.moved 0 (max 0 b.baseline - b.baseline))).Perm _
    rw [max_eq_right hbaseline, Int.sub_self, map_moved_zero]
    exact .refl _
  | true =>
    rw [beside_superscript h.area hsuper]
    show (([] : List PlacedGlyph) ++ b.glyphs.map (·.moved 0 0)).Perm _
    rw [map_moved_zero]
    exact .refl _

/-! ### Alike parts -/

theorem Alike.superscript (h : a.Alike b) : (superscript a).Alike (superscript b) :=
  ⟨h.glyphs, h.baseline, h.area, rfl⟩

theorem Alike.root (level : Int) (h : a.Alike b) :
    (root Renderer.ascii level a).Alike (root Renderer.ascii level b) := by
  rw [root_eq, root_eq, h.area]
  exact (Alike.refl _).overlay (h.moved 2 1) .second

/-- Fractions of alike blocks are alike. -/
theorem Alike.fraction (level : Int) (ha : a.Alike a') (hb : b.Alike b') :
    (fraction Renderer.ascii level a b).Alike (fraction Renderer.ascii level a' b') := by
  rw [Block.fraction, Block.fraction, ha.area, hb.area]
  have hline := (Alike.refl (ofGlyph Renderer.ascii level
    (.fraction (max a'.area.width b'.area.width)))).below ha
  exact (ha.alongCentre hline .second).alongCentre (hb.below hline) .first

theorem Alike.raised (ha : a.Alike a') (hb : b.Alike b') (hsolid : a.Solid) (hsolid' : b.Solid) :
    (raised a b).Alike (raised a' b') := by
  rw [raised_eq hsolid hsolid', raised_eq (ha.solid hsolid) (hb.solid hsolid')]
  exact ha.beside hb.superscript

open List (Forall₂)

variable {bs cs ds es : List Block} {level : Int}

/-- Attaching alike blocks to alike groups gives alike groups. -/
theorem attach_alike (hb : b.Alike b') (h : Forall₂ Alike bs cs) :
    Forall₂ Alike (attach bs b) (attach cs b') := by
  cases h with
  | nil => exact .cons hb .nil
  | @cons left left' more more' hleft hmore =>
    cases hbinds : b.special.binds with
    | true =>
      rw [attach_cons_of_binds hbinds, attach_cons_of_binds (hb.special ▸ hbinds)]
      exact .cons (hleft.beside hb) hmore
    | false =>
      rw [attach_of_not_binds hbinds, attach_of_not_binds (hb.special ▸ hbinds)]
      exact .cons hb (.cons hleft hmore)

/-- Alike blocks are gathered in alike groups. -/
theorem foldl_attach_alike (h : Forall₂ Alike bs cs) (hrow : Forall₂ Alike ds es) :
    Forall₂ Alike (bs.foldl attach ds) (cs.foldl attach es) := by
  induction h generalizing ds es with
  | nil => exact hrow
  | cons hb _ ih => exact ih (attach_alike hb hrow)

/-- Alike blocks in a row are alike. -/
theorem foldl_beside_alike (h : Forall₂ Alike bs cs) (ha : a.Alike a') :
    (bs.foldl beside a).Alike (cs.foldl beside a') := by
  induction h generalizing a a' with
  | nil => exact ha
  | cons hb _ ih => exact ih (ha.beside hb)

/-- Rows of alike blocks look alike. -/
theorem row_alike (h : Forall₂ Alike bs cs) : (row bs).Alike (row cs) := by
  rw [row_eq, row_eq]
  exact foldl_beside_alike (List.rel_reverse (foldl_attach_alike h .nil)) (.refl _)

/-- Brackets depend on the height and the baseline of what they stand around. -/
theorem brackets_alike (h : a.Alike b) :
    brackets Renderer.ascii level a = brackets Renderer.ascii level b := by
  rw [brackets, brackets, h.area, h.baseline]

theorem forall₂_refl (bs : List Block) : Forall₂ Alike bs bs :=
  List.forall₂_same.mpr fun b _ => .refl b

theorem Alike.parenthesised (level : Int) (h : a.Alike b) :
    (parenthesised Renderer.ascii level a).Alike (parenthesised Renderer.ascii level b) := by
  rw [Block.parenthesised, Block.parenthesised, brackets_alike h]
  exact row_alike (.cons (.refl _) (.cons h (forall₂_refl _)))

/-- Related members remain so with related ones between them. -/
theorem forall₂_intersperse {α β : Type} {R : α → β → Prop} {x : α} {y : β} {xs : List α}
    {ys : List β} (hsep : R x y) (h : Forall₂ R xs ys) :
    Forall₂ R (xs.intersperse x) (ys.intersperse y) := by
  induction h with
  | nil => exact .nil
  | cons hfirst h ih =>
    cases h with
    | nil => exact .cons hfirst .nil
    | cons hnext h => exact .cons hfirst (.cons hsep ih)

/-- Calls with alike arguments look alike. -/
theorem call_alike (level : Int) (f : NamedFunction) (h : Forall₂ Alike bs cs) :
    (call Renderer.ascii level f bs).Alike (call Renderer.ascii level f cs) := by
  have hjoined := row_alike (forall₂_intersperse (.refl (ofGlyph Renderer.ascii level .comma)) h)
  rw [call, call, brackets_alike hjoined]
  exact row_alike (.cons (.refl _) (.cons (.refl _) (.cons hjoined (forall₂_refl _))))

end Mathpad.Block
