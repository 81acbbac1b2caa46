import Mathlib.Algebra.Order.Group.Int
import Mathlib.Algebra.Order.Group.Unbundled.Basic
import Mathpad.Drawing.Block

/-!
# How far blocks reach

The area of a block is the least one from the origin that covers its glyphs. So it is known
from what it is not larger than (`extent_width_le_iff`, `extent_height_le_iff`), it does not
depend on the order of the glyphs, and it grows by as much as they are moved.

A block is `Solid` when there is something in it, nothing lies above or to the left of the
origin, and its area is the one of its glyphs. `Block.beside` is the one way in which rows put
blocks together, and every notation keeps blocks solid.
-/
set_option autoImplicit false

namespace Mathpad

/-! ## Glyphs -/

namespace PlacedGlyph

/-- The first column behind a glyph. -/
def right (g : PlacedGlyph) : Int := g.place.x + g.area.width

/-- The first line below a glyph. -/
def bottom (g : PlacedGlyph) : Int := g.place.y + g.area.height

/-- Nothing of the glyph lies above or to the left of the origin. -/
structure Rests (g : PlacedGlyph) : Prop where
  x : 0 ≤ g.place.x
  y : 0 ≤ g.place.y
  width : 0 ≤ g.area.width
  height : 0 ≤ g.area.height

theorem moved_moved (g : PlacedGlyph) (a b c d : Int) :
    (g.moved a b).moved c d = g.moved (a + c) (b + d) := by
  simp [moved, Point.moved, Int.add_assoc]

@[simp] theorem moved_zero (g : PlacedGlyph) : g.moved 0 0 = g := by
  simp [moved, Point.moved]

variable {g : PlacedGlyph}

theorem right_moved (dx dy : Int) : (g.moved dx dy).right = g.right + dx := by
  simp only [right, moved, Point.moved]
  omega

theorem bottom_moved (dx dy : Int) : (g.moved dx dy).bottom = g.bottom + dy := by
  simp only [bottom, moved, Point.moved]
  omega

/-- A glyph that is moved to the right and down still rests. -/
theorem Rests.moved (h : g.Rests) {dx dy : Int} (hdx : 0 ≤ dx) (hdy : 0 ≤ dy) :
    (g.moved dx dy).Rests where
  x := Int.add_nonneg h.x hdx
  y := Int.add_nonneg h.y hdy
  width := h.width
  height := h.height

theorem Rests.right_nonneg (h : g.Rests) : 0 ≤ g.right := Int.add_nonneg h.x h.width

theorem Rests.bottom_nonneg (h : g.Rests) : 0 ≤ g.bottom := Int.add_nonneg h.y h.height

end PlacedGlyph

namespace Block

/-! ## The extent of glyphs -/

section Extent

variable {gs hs : List PlacedGlyph}

/-- The largest of some numbers is at most a bound if and only if each of them is. -/
theorem foldl_max_le_iff {α : Type} (f : α → Int) (xs : List α) (start n : Int) :
    xs.foldl (fun m x => max m (f x)) start ≤ n ↔ start ≤ n ∧ ∀ x ∈ xs, f x ≤ n := by
  induction xs generalizing start with
  | nil => simp
  | cons x xs ih =>
    rw [List.foldl_cons, ih, max_le_iff, List.forall_mem_cons, and_assoc]

/-- An area is no wider than `n` if no glyph ends to the right of it. -/
theorem extent_width_le_iff {n : Int} :
    (extent gs).width ≤ n ↔ 0 ≤ n ∧ ∀ g ∈ gs, g.right ≤ n :=
  foldl_max_le_iff _ gs 0 n

/-- An area is no higher than `n` if no glyph ends below it. -/
theorem extent_height_le_iff {n : Int} :
    (extent gs).height ≤ n ↔ 0 ≤ n ∧ ∀ g ∈ gs, g.bottom ≤ n :=
  foldl_max_le_iff _ gs 0 n

theorem extent_width_nonneg : 0 ≤ (extent gs).width := (extent_width_le_iff.mp le_rfl).1

theorem extent_height_nonneg : 0 ≤ (extent gs).height := (extent_height_le_iff.mp le_rfl).1

theorem right_le_extent {g : PlacedGlyph} (h : g ∈ gs) : g.right ≤ (extent gs).width :=
  (extent_width_le_iff.mp le_rfl).2 g h

theorem bottom_le_extent {g : PlacedGlyph} (h : g ∈ gs) : g.bottom ≤ (extent gs).height :=
  (extent_height_le_iff.mp le_rfl).2 g h

/-- Only which glyphs there are matters for how far they reach. -/
theorem extent_mono (h : gs ⊆ hs) :
    (extent gs).width ≤ (extent hs).width ∧ (extent gs).height ≤ (extent hs).height :=
  ⟨extent_width_le_iff.mpr ⟨extent_width_nonneg, fun _ hg => right_le_extent (h hg)⟩,
    extent_height_le_iff.mpr ⟨extent_height_nonneg, fun _ hg => bottom_le_extent (h hg)⟩⟩

/-- The area does not depend on the order of the glyphs. -/
theorem extent_perm (h : gs.Perm hs) : extent gs = extent hs := by
  obtain ⟨hwidth, hheight⟩ := extent_mono h.subset
  obtain ⟨hwidth', hheight'⟩ := extent_mono h.symm.subset
  exact congrArg₂ Area.mk (le_antisymm hwidth hwidth') (le_antisymm hheight hheight')

/-- Glyphs that are moved reach as much further. -/
theorem extent_moved (hne : gs ≠ []) (h : ∀ g ∈ gs, g.Rests) {dx dy : Int} (hdx : 0 ≤ dx)
    (hdy : 0 ≤ dy) :
    extent (gs.map (·.moved dx dy)) = ⟨(extent gs).width + dx, (extent gs).height + dy⟩ := by
  have hwidth : 0 ≤ (extent gs).width := extent_width_nonneg
  have hheight : 0 ≤ (extent gs).height := extent_height_nonneg
  obtain ⟨g, hg⟩ := List.exists_mem_of_ne_nil gs hne
  -- an extent is at least zero in any case, so there has to be a glyph that moves its bounds
  have hreach : ∀ u ∈ gs, u.right + dx ≤ (extent (gs.map (·.moved dx dy))).width ∧
      u.bottom + dy ≤ (extent (gs.map (·.moved dx dy))).height := by
    intro u hu
    have hmoved : u.moved dx dy ∈ gs.map (·.moved dx dy) := List.mem_map_of_mem hu
    rw [← PlacedGlyph.right_moved, ← PlacedGlyph.bottom_moved]
    exact ⟨right_le_extent hmoved, bottom_le_extent hmoved⟩
  have hright := (h g hg).right_nonneg
  have hbottom := (h g hg).bottom_nonneg
  have hwide : (extent (gs.map (·.moved dx dy))).width = (extent gs).width + dx := by
    refine le_antisymm ?_ (le_sub_iff_add_le.mp ?_)
    · refine extent_width_le_iff.mpr ⟨by omega, List.forall_mem_map.mpr fun u hu => ?_⟩
      rw [PlacedGlyph.right_moved]
      exact Int.add_le_add_right (right_le_extent hu) dx
    · refine extent_width_le_iff.mpr ⟨?_, fun u hu => le_sub_iff_add_le.mpr (hreach u hu).1⟩
      have := (hreach g hg).1
      omega
  have hhigh : (extent (gs.map (·.moved dx dy))).height = (extent gs).height + dy := by
    refine le_antisymm ?_ (le_sub_iff_add_le.mp ?_)
    · refine extent_height_le_iff.mpr ⟨by omega, List.forall_mem_map.mpr fun u hu => ?_⟩
      rw [PlacedGlyph.bottom_moved]
      exact Int.add_le_add_right (bottom_le_extent hu) dy
    · refine extent_height_le_iff.mpr ⟨?_, fun u hu => le_sub_iff_add_le.mpr (hreach u hu).2⟩
      have := (hreach g hg).2
      omega
  exact congrArg₂ Area.mk hwide hhigh

/-- Glyphs that are moved to the right do not reach further down. -/
theorem extent_moved_height (gs : List PlacedGlyph) (dx : Int) :
    (extent (gs.map (·.moved dx 0))).height = (extent gs).height := by
  refine eq_of_forall_ge_iff fun n => ?_
  rw [extent_height_le_iff, extent_height_le_iff, List.forall_mem_map]
  simp only [PlacedGlyph.bottom_moved, Int.add_zero]

/-- Glyphs that are moved down do not reach further to the right. -/
theorem extent_moved_width (gs : List PlacedGlyph) (dy : Int) :
    (extent (gs.map (·.moved 0 dy))).width = (extent gs).width := by
  refine eq_of_forall_ge_iff fun n => ?_
  rw [extent_width_le_iff, extent_width_le_iff, List.forall_mem_map]
  simp only [PlacedGlyph.right_moved, Int.add_zero]

/-- Glyphs of two kinds together are as large as the larger kind in each direction. -/
theorem extent_append :
    extent (gs ++ hs) =
      ⟨max (extent gs).width (extent hs).width, max (extent gs).height (extent hs).height⟩ := by
  refine congrArg₂ Area.mk (eq_of_forall_ge_iff fun n => ?_) (eq_of_forall_ge_iff fun n => ?_)
  · show (extent (gs ++ hs)).width ≤ n ↔ _
    rw [max_le_iff, extent_width_le_iff, extent_width_le_iff, extent_width_le_iff,
      List.forall_mem_append, and_and_left]
  · show (extent (gs ++ hs)).height ≤ n ↔ _
    rw [max_le_iff, extent_height_le_iff, extent_height_le_iff, extent_height_le_iff,
      List.forall_mem_append, and_and_left]

theorem extent_singleton {g : PlacedGlyph} (h : g.Rests) : extent [g] = ⟨g.right, g.bottom⟩ :=
  congrArg₂ Area.mk (max_eq_right h.right_nonneg) (max_eq_right h.bottom_nonneg)

end Extent

/-! ## Blocks in a row -/

/-- A block with another one at its right end, on one baseline or as a superscript. -/
def beside (a b : Block) : Block := a.alongBaseline (b.rightOf a)

/-- A block that binds is put beside the last one, as a superscript is. -/
theorem attach_cons_of_binds {b : Block} (h : b.special.binds = true) (left : Block)
    (more : List Block) : attach (left :: more) b = left.beside b :: more := by
  rw [attach, if_pos h]
  rfl

/-- A block that does not bind begins a group of its own. -/
theorem attach_of_not_binds {b : Block} (h : b.special.binds = false) (bs : List Block) :
    attach bs b = b :: bs := by
  cases bs with
  | nil => rfl
  | cons left more => rw [attach, if_neg (by simp [h])]

theorem row_eq (bs : List Block) :
    row bs = (bs.foldl attach []).reverse.foldl beside empty := rfl

section Rows

variable {P : Block → Prop}

/-- A property that putting two blocks side by side keeps, is kept when one more block is attached.
-/
theorem attach_forall (hbeside : ∀ a b, P a → P b → P (a.beside b)) {bs : List Block} {b : Block}
    (h : ∀ c ∈ bs, P c) (hb : P b) : attach bs b ≠ [] ∧ ∀ c ∈ attach bs b, P c := by
  by_cases hbinds : b.special.binds = true
  · cases bs with
    | nil => exact ⟨by simp [attach], by simpa [attach] using hb⟩
    | cons left more =>
      obtain ⟨hleft, hmore⟩ := List.forall_mem_cons.mp h
      rw [attach_cons_of_binds hbinds]
      exact ⟨by simp, List.forall_mem_cons.mpr ⟨hbeside _ _ hleft hb, hmore⟩⟩
  · rw [attach_of_not_binds (by simpa using hbinds)]
    exact ⟨by simp, List.forall_mem_cons.mpr ⟨hb, h⟩⟩

/-- A property that putting two blocks side by side keeps, holds of all groups if it holds of all
blocks. -/
theorem foldl_attach_forall (hbeside : ∀ a b, P a → P b → P (a.beside b)) {bs row : List Block}
    (hrow : ∀ c ∈ row, P c) (h : ∀ c ∈ bs, P c) (hne : row ≠ [] ∨ bs ≠ []) :
    bs.foldl attach row ≠ [] ∧ ∀ c ∈ bs.foldl attach row, P c := by
  induction bs generalizing row with
  | nil => exact ⟨by simpa using hne, hrow⟩
  | cons b bs ih =>
    obtain ⟨hb, hbs⟩ := List.forall_mem_cons.mp h
    obtain ⟨hattached, hall⟩ := attach_forall hbeside hrow hb
    exact ih hall hbs (Or.inl hattached)

/-- What is true of two blocks side by side, if it is true of each of them, is true of rows. -/
theorem row_forall (hbeside : ∀ a b, P a → P b → P (a.beside b))
    (hstart : ∀ b, P b → P (empty.beside b)) {bs : List Block} (hne : bs ≠ [])
    (h : ∀ c ∈ bs, P c) : P (row bs) := by
  obtain ⟨hattached, hall⟩ :=
    foldl_attach_forall hbeside (List.forall_mem_nil _) h (Or.inr hne)
  -- the groups have the property, and are put beside what is there one by one
  have hfold : ∀ (cs : List Block) (done : Block), P done → (∀ c ∈ cs, P c) →
      P (cs.foldl beside done) := by
    intro cs
    induction cs with
    | nil => exact fun _ hdone _ => hdone
    | cons c cs ih =>
      intro done hdone hcs
      obtain ⟨hc, hcs⟩ := List.forall_mem_cons.mp hcs
      exact ih _ (hbeside _ _ hdone hc) hcs
  rw [row_eq]
  obtain ⟨first, more, hsplit⟩ := List.exists_cons_of_ne_nil (mt List.reverse_eq_nil_iff.mp hattached)
  have hmembers : ∀ c ∈ first :: more, P c := fun c hc =>
    hall c (List.mem_reverse.mp (hsplit ▸ hc))
  obtain ⟨hfirst, hmore⟩ := List.forall_mem_cons.mp hmembers
  rw [hsplit, List.foldl_cons]
  exact hfold more _ (hstart _ hfirst) hmore

end Rows

/-! ## Solid blocks -/

/-- Nothing lies above or to the left of the origin, and the area is that of the glyphs. -/
structure Snug (b : Block) : Prop where
  glyphs : ∀ g ∈ b.glyphs, g.Rests
  baseline : 0 ≤ b.baseline
  area : b.area = extent b.glyphs

/-- A snug block with something in it. -/
structure Solid (b : Block) : Prop extends b.Snug where
  ne_nil : b.glyphs ≠ []

variable {a b : Block}

theorem Snug.width_nonneg (h : b.Snug) : 0 ≤ b.area.width := by
  rw [h.area]
  exact extent_width_nonneg

theorem Snug.height_nonneg (h : b.Snug) : 0 ≤ b.area.height := by
  rw [h.area]
  exact extent_height_nonneg

theorem empty_snug : empty.Snug := ⟨by simp [empty], le_rfl, rfl⟩

theorem Solid.area_moved (h : b.Solid) {dx dy : Int} (hdx : 0 ≤ dx) (hdy : 0 ≤ dy) :
    (b.moved dx dy).area = ⟨b.area.width + dx, b.area.height + dy⟩ := by
  rw [h.area]
  exact extent_moved h.ne_nil h.glyphs hdx hdy

/-- A snug block that is moved to the right and down is snug. -/
theorem Snug.moved (h : b.Snug) {dx dy : Int} (hdx : 0 ≤ dx) (hdy : 0 ≤ dy) :
    (b.moved dx dy).Snug where
  glyphs := List.forall_mem_map.mpr fun g hg => (h.glyphs g hg).moved hdx hdy
  baseline := Int.add_nonneg h.baseline hdy
  area := rfl

theorem Solid.moved (h : b.Solid) {dx dy : Int} (hdx : 0 ≤ dx) (hdy : 0 ≤ dy) :
    (b.moved dx dy).Solid where
  toSnug := h.toSnug.moved hdx hdy
  ne_nil := by simpa [Block.moved] using h.ne_nil

/-- A solid block to the right of a snug one is solid. -/
theorem Solid.rightOf (h : b.Solid) (ha : a.Snug) : (b.rightOf a).Solid :=
  h.moved ha.width_nonneg le_rfl

theorem Solid.below (h : b.Solid) (ha : a.Snug) : (b.below a).Solid :=
  h.moved le_rfl ha.height_nonneg

/-- A block that is made of resting glyphs is solid, as its area is computed from them. -/
theorem ofGlyphs_solid {gs hs : List PlacedGlyph} (hgs : ∀ g ∈ gs, g.Rests)
    (hhs : ∀ g ∈ hs, g.Rests) (hne : gs ≠ [] ∨ hs ≠ []) {baseline : Int} (h : 0 ≤ baseline) :
    (ofGlyphs (gs ++ hs) baseline).Solid where
  glyphs := List.forall_mem_append.mpr ⟨hgs, hhs⟩
  baseline := h
  area := rfl
  ne_nil := by
    show gs ++ hs ≠ []
    rw [ne_eq, List.append_eq_nil_iff, not_and_or]
    exact hne

/-- Laying one block over another gives a solid block, whichever of the two keeps its baseline. -/
theorem Snug.overlay (ha : a.Snug) (hb : b.Solid) (leader : Leader) :
    (a.overlay b leader).Solid := by
  refine ofGlyphs_solid ha.glyphs hb.glyphs (Or.inr hb.ne_nil) ?_
  cases leader with
  | first => exact ha.baseline
  | second => exact hb.baseline

/-- Putting two blocks on one baseline gives a solid block: one of the two is moved down, never up.
-/
theorem Snug.alongBaseline (ha : a.Snug) (hb : b.Solid) : (a.alongBaseline b).Solid := by
  unfold Block.alongBaseline
  by_cases hsuper : b.special.superscript = true
  · rw [if_pos hsuper]
    exact (ha.moved le_rfl hb.height_nonneg).overlay hb .first
  rw [if_neg hsuper]
  by_cases hlow : a.baseline < b.baseline
  · rw [if_pos hlow]
    have hmoved := ha.moved le_rfl (show 0 ≤ b.baseline - a.baseline by omega)
    exact ofGlyphs_solid hmoved.glyphs hb.glyphs (Or.inr hb.ne_nil) hb.baseline
  · rw [if_neg hlow]
    have hmoved := hb.moved le_rfl (show 0 ≤ a.baseline - b.baseline by omega)
    exact ofGlyphs_solid hmoved.glyphs ha.glyphs (Or.inl hmoved.ne_nil) ha.baseline

theorem Snug.beside (ha : a.Snug) (hb : b.Solid) : (a.beside b).Solid :=
  ha.alongBaseline (hb.rightOf ha)

/-- Putting two blocks on one centre line gives a solid block: the narrower one is moved to the
right. -/
theorem Solid.alongCentre (ha : a.Solid) (hb : b.Solid) (leader : Leader) :
    (a.alongCentre b leader).Solid := by
  have hbaseline : 0 ≤ leader.baseline a b := by
    cases leader with
    | first => exact ha.baseline
    | second => exact hb.baseline
  unfold Block.alongCentre
  by_cases hnarrow : a.area.width / 2 - b.area.width / 2 < 0
  · simp only [hnarrow, if_true]
    have hmoved := ha.moved (show 0 ≤ -(a.area.width / 2 - b.area.width / 2) by omega) le_rfl
    exact ofGlyphs_solid hmoved.glyphs hb.glyphs (Or.inr hb.ne_nil) hbaseline
  · simp only [hnarrow, if_false]
    have hmoved := hb.moved (show 0 ≤ a.area.width / 2 - b.area.width / 2 by omega) le_rfl
    exact ofGlyphs_solid hmoved.glyphs ha.glyphs (Or.inl hmoved.ne_nil) hbaseline

/-- A glyph of a size that is not negative is a solid block. -/
theorem ofGlyph_solid {r : Renderer} (level : Int) {glyph : Glyph}
    (hwidth : 0 ≤ (r.size glyph level).width) (hheight : 0 ≤ (r.size glyph level).height) :
    (ofGlyph r level glyph).Solid := by
  have hrests : PlacedGlyph.Rests ⟨glyph, r.size glyph level, level, Point.origin⟩ :=
    ⟨le_rfl, le_rfl, hwidth, hheight⟩
  refine ⟨⟨?_, Int.ediv_nonneg hheight (by decide), ?_⟩, by simp [ofGlyph]⟩
  · intro g hg
    rw [List.mem_singleton.mp hg]
    exact hrests
  · show r.size glyph level = extent [_]
    rw [extent_singleton hrests]
    simp [PlacedGlyph.right, PlacedGlyph.bottom, Point.origin]

end Block
end Mathpad
