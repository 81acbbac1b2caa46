import Mathpad.Proofs.Cells
import Mathpad.Proofs.Notations

/-!
# Nothing is drawn over anything else

A block is `Tidy` when its glyphs stay inside its area and no two of them draw the same cell.
Blocks side by side keep apart because one ends where the other begins, and the parts of a
fraction because each begins below the one before; only a root and its contents are not kept
apart by their areas, but by the cells that a root leaves free. So every notation keeps blocks
tidy (`Block.tidy_kept`).
-/
set_option autoImplicit false

namespace Mathpad

/-- The cell is inside the area. -/
structure Area.Covers (area : Area) (p : Point) : Prop where
  left : 0 ≤ p.x
  right : p.x < area.width
  top : 0 ≤ p.y
  bottom : p.y < area.height

theorem Area.Covers.mono {area larger : Area} {p : Point} (h : area.Covers p)
    (hwidth : area.width ≤ larger.width) (hheight : area.height ≤ larger.height) :
    larger.Covers p :=
  ⟨h.left, h.right.trans_le hwidth, h.top, h.bottom.trans_le hheight⟩

theorem Area.Covers.moved {area : Area} {p : Point} {dx dy : Int}
    (h : area.Covers (p.moved (-dx) (-dy))) (hdx : 0 ≤ dx) (hdy : 0 ≤ dy) :
    (Area.mk (area.width + dx) (area.height + dy)).Covers p := by
  obtain ⟨hleft, hright, htop, hbottom⟩ := h
  dsimp only [Point.moved] at hleft hright htop hbottom
  exact ⟨by omega, by dsimp only; omega, by omega, by dsimp only; omega⟩

namespace Block

/-! ## Tidy blocks -/

/-- All glyphs are drawn inside the area, each in cells of its own. -/
structure Tidy (b : Block) : Prop extends b.Solid where
  height : 1 ≤ b.area.height
  simple : ∀ g ∈ b.glyphs, g.glyph.IsSimple
  covers : ∀ g ∈ b.glyphs, ∀ p, g.Draws p → b.area.Covers p
  apart : b.glyphs.Pairwise PlacedGlyph.Apart

variable {a b c : Block}

/-- A solid block with the glyphs of a tidy one is tidy. -/
theorem Tidy.of_perm (h : b.Tidy) (hc : c.Solid) (hglyphs : c.glyphs.Perm b.glyphs) : c.Tidy := by
  have harea : c.area = b.area := by rw [hc.area, h.area, extent_perm hglyphs]
  refine ⟨hc, harea ▸ h.height, fun g hg => h.simple g (hglyphs.mem_iff.mp hg),
    fun g hg p hp => ?_, (hglyphs.pairwise_iff PlacedGlyph.Apart.symm).mpr h.apart⟩
  rw [harea]
  exact h.covers g (hglyphs.mem_iff.mp hg) p hp

/-- A tidy block stays one wherever it is moved. -/
theorem Tidy.moved (h : b.Tidy) {dx dy : Int} (hdx : 0 ≤ dx) (hdy : 0 ≤ dy) :
    (b.moved dx dy).Tidy where
  toSolid := h.toSolid.moved hdx hdy
  height := by
    have hheight := h.height
    rw [h.area_moved hdx hdy]
    dsimp only
    omega
  simple := List.forall_mem_map.mpr fun g hg => h.simple g hg
  covers := by
    rw [h.area_moved hdx hdy]
    refine List.forall_mem_map.mpr fun g hg p hp => ?_
    exact (h.covers g hg _ (PlacedGlyph.draws_moved.mp hp)).moved hdx hdy
  apart := List.pairwise_map.mpr (h.apart.imp fun hapart => hapart.moved dx dy)

/-- Two tidy blocks that draw different cells are tidy together. -/
theorem Tidy.union (ha : a.Tidy) (hb : b.Tidy)
    (h : ∀ g ∈ a.glyphs, ∀ u ∈ b.glyphs, g.Apart u) (hc : c.Solid)
    (hglyphs : c.glyphs.Perm (a.glyphs ++ b.glyphs)) : c.Tidy := by
  have harea : c.area = ⟨max a.area.width b.area.width, max a.area.height b.area.height⟩ := by
    rw [hc.area, extent_perm hglyphs, extent_append, ha.area, hb.area]
  refine ⟨hc, ?_, fun g hg => ?_, fun g hg p hp => ?_, ?_⟩
  · rw [harea]
    exact le_max_of_le_left ha.height
  · exact (List.mem_append.mp (hglyphs.mem_iff.mp hg)).elim (ha.simple g) (hb.simple g)
  · rw [harea]
    rcases List.mem_append.mp (hglyphs.mem_iff.mp hg) with hg | hg
    · exact (ha.covers g hg p hp).mono (le_max_left _ _) (le_max_left _ _)
    · exact (hb.covers g hg p hp).mono (le_max_right _ _) (le_max_right _ _)
  · refine (hglyphs.pairwise_iff PlacedGlyph.Apart.symm).mpr ?_
    exact List.pairwise_append.mpr ⟨ha.apart, hb.apart, h⟩

/-- A proper glyph is tidy. -/
theorem ofGlyph_tidy {glyph : Glyph} (h : glyph.IsProper) (level : Int)
    (hwidth : 0 ≤ (Renderer.ascii.size glyph level).width)
    (hheight : 1 ≤ (Renderer.ascii.size glyph level).height) :
    (ofGlyph Renderer.ascii level glyph).Tidy where
  toSolid := ofGlyph_solid level hwidth (zero_le_one.trans hheight)
  height := hheight
  simple := List.forall_mem_singleton.mpr h.isSimple
  covers := by
    refine List.forall_mem_singleton.mpr fun p ⟨c, hc⟩ => ?_
    obtain ⟨hleft, hright, htop, hbottom⟩ := h.ink_inside level (PlacedGlyph.mem_marks.mp hc)
    simp only [Point.origin, Int.sub_zero] at hleft hright htop hbottom
    exact ⟨hleft, hright, htop, hbottom⟩
  apart := List.pairwise_singleton _ _

/-! ## Side by side -/

/-- A block on the right of another one draws other columns. -/
theorem Tidy.apart_rightOf (ha : a.Tidy) (hb : b.Tidy) (down down' : Int) :
    ∀ g ∈ (a.moved 0 down).glyphs, ∀ u ∈ (b.moved a.area.width down').glyphs, g.Apart u := by
  refine List.forall_mem_map.mpr fun g hg => List.forall_mem_map.mpr fun u hu p hp hp' => ?_
  have hright := (ha.covers g hg _ (PlacedGlyph.draws_moved.mp hp)).right
  have hleft := (hb.covers u hu _ (PlacedGlyph.draws_moved.mp hp')).left
  dsimp only [Point.moved] at hright hleft
  omega

theorem Tidy.beside (ha : a.Tidy) (hb : b.Tidy) : (a.beside b).Tidy := by
  have hsolid := ha.toSnug.beside hb.toSolid
  have hwide := ha.width_nonneg
  -- how far down the two are does not matter, since they have no column in common
  have habreast : ∀ {down down' baseline : Int}, 0 ≤ down → 0 ≤ down' →
      (a.beside b).glyphs.Perm (abreast a b down down' baseline).glyphs → (a.beside b).Tidy :=
    fun hdown hdown' hperm =>
      (ha.moved le_rfl hdown).union (hb.moved hwide hdown') (ha.apart_rightOf hb _ _) hsolid hperm
  cases hsuper : b.special.superscript with
  | false => exact habreast (by omega) (by omega) (beside_alike hsuper).glyphs
  | true =>
    rw [beside_superscript hb.area hsuper] at habreast ⊢
    exact habreast hb.height_nonneg le_rfl (.refl _)

/-! ## One below the other -/

/-- A block below everything in another one, on the same centre line. -/
theorem Tidy.stacked (ha : a.Tidy) (hb : b.Tidy) (hc : c.Solid)
    (h : a.area.height ≤ c.area.height) (leader : Leader) :
    (a.alongCentre (b.below c) leader).Tidy := by
  have hdown := hc.height_nonneg
  have hlow := hb.moved le_rfl hdown
  refine (ha.moved (by omega) le_rfl).union (hlow.moved (by omega) le_rfl) ?_
    (ha.toSolid.alongCentre hlow.toSolid leader) alongCentre_alike.glyphs
  refine List.forall_mem_map.mpr fun g hg =>
    List.forall_mem_map.mpr fun v hv p hp hp' => ?_
  obtain ⟨u, hu, rfl⟩ := List.mem_map.mp hv
  have hbottom := (ha.covers g hg _ (PlacedGlyph.draws_moved.mp hp)).bottom
  have htop := (hb.covers u hu _
    (PlacedGlyph.draws_moved.mp (PlacedGlyph.draws_moved.mp hp'))).top
  dsimp only [Point.moved] at hbottom htop
  omega

/-- A fraction of tidy blocks is tidy: the upper part is above its bar, and the lower part below. -/
theorem Tidy.fraction (level : Int) (ha : a.Tidy) (hb : b.Tidy) :
    (fraction Renderer.ascii level a b).Tidy := by
  have hwidth : 0 ≤ max a.area.width b.area.width := le_max_of_le_left ha.width_nonneg
  have hstroke : (ofGlyph Renderer.ascii level
      (.fraction (max a.area.width b.area.width))).Tidy :=
    ofGlyph_tidy (show (Glyph.fraction _).IsProper from trivial) level hwidth le_rfl
  have hline := hstroke.toSolid.below ha.toSnug
  refine (ha.stacked hstroke ha.toSolid le_rfl .second).stacked hb hline ?_ .first
  rw [ha.alongCentre_height hline, below, hstroke.area_moved le_rfl ha.height_nonneg]
  have hflat : (ofGlyph Renderer.ascii level
    (.fraction (max a.area.width b.area.width))).area.height = 1 := rfl
  dsimp only
  omega

/-! ## Inside a root -/

/-- A root of a tidy block is tidy: its sign reaches around the block. -/
theorem Tidy.root (level : Int) (hb : b.Tidy) : (root Renderer.ascii level b).Tidy := by
  have hwidth := hb.width_nonneg
  have hheight := hb.height_nonneg
  have hsign : (ofGlyph Renderer.ascii level (.sqrt b.area)).Tidy := by
    have hproper : (Glyph.sqrt b.area).IsProper := ⟨hwidth, hheight⟩
    refine ofGlyph_tidy hproper level ?_ ?_
    · show 0 ≤ b.area.width + 2
      omega
    · show 1 ≤ b.area.height + 1
      omega
  have hinner := hb.moved (show (0 : Int) ≤ 2 by decide) (show (0 : Int) ≤ 1 by decide)
  rw [root_eq]
  refine hsign.union hinner ?_ (hsign.toSnug.overlay hinner.toSolid .second) (.refl _)
  -- the contents begin behind the stem and below the roof
  refine List.forall_mem_singleton.mpr (List.forall_mem_map.mpr fun u hu p ⟨c, hc⟩ hp => ?_)
  have hcovers := hb.covers u hu _ (PlacedGlyph.draws_moved.mp hp)
  have hleft := hcovers.left
  have htop := hcovers.top
  have hink := Glyph.ink_sqrt (PlacedGlyph.mem_marks.mp hc)
  dsimp only [Point.moved, Point.origin] at hleft htop hink
  omega

/-! ## Calls without arguments -/

/-- Between the parentheses of a call without arguments there is nothing. -/
theorem call_nil (level : Int) (f : NamedFunction) :
    call Renderer.ascii level f [] =
      { glyphs := [⟨.rightParenthesis 0, ⟨1, 0⟩, level, ⟨f.name.length + 1, 0⟩⟩,
          ⟨.leftParenthesis 0, ⟨1, 0⟩, level, ⟨f.name.length, 0⟩⟩,
          ⟨.functionName f, ⟨f.name.length, 1⟩, level, ⟨0, 0⟩⟩],
        baseline := 0, area := ⟨f.name.length + 2, 1⟩ } := by
  cases f <;> rfl

/-- A call without arguments is solid. -/
theorem call_nil_solid (level : Int) (f : NamedFunction) :
    (call Renderer.ascii level f []).Solid := by
  rw [call_nil]
  refine ⟨⟨?_, le_rfl, ?_⟩, by simp⟩
  · intro g hg
    simp only [List.mem_cons, List.not_mem_nil, or_false] at hg
    rcases hg with rfl | rfl | rfl <;> constructor <;> dsimp only <;> omega
  · refine congrArg₂ Area.mk ?_ ?_ <;> simp only [List.foldl_cons, List.foldl_nil] <;> omega

/-- A parenthesis around nothing is still a character, although its area has no height. -/
theorem flat_cell {g : PlacedGlyph} {p : Point}
    (h : g.glyph = .leftParenthesis 0 ∨ g.glyph = .rightParenthesis 0) (hp : g.Draws p) :
    p.x = g.place.x ∧ p.y = g.place.y := by
  obtain ⟨c, hc⟩ := hp
  have hink := PlacedGlyph.mem_marks.mp hc
  rcases h with h | h <;> rw [h] at hink <;>
    simp only [Glyph.ink, Glyph.parenthesisInk, Glyph.columnInk] at hink <;> grind

/-- A call without arguments is tidy: its parentheses are next to each other. -/
theorem call_nil_tidy (level : Int) (f : NamedFunction) :
    (call Renderer.ascii level f []).Tidy := by
  have hsolid := call_nil_solid level f
  have hlength := Int.natCast_nonneg f.name.length
  have hname : ∀ {p : Point} {area : Area},
      PlacedGlyph.Draws ⟨.functionName f, area, level, ⟨0, 0⟩⟩ p →
      0 ≤ p.x ∧ p.x < f.name.length ∧ p.y = 0 := by
    rintro p area ⟨c, hc⟩
    have hink := Glyph.textInk_eq_some (PlacedGlyph.mem_marks.mp hc)
    simp only [Int.sub_zero] at hink
    exact hink
  -- the areas of the parentheses are empty, so the cells are compared one by one
  rw [call_nil] at hsolid ⊢
  refine ⟨hsolid, le_rfl, by simp [Glyph.IsSimple], ?_, ?_⟩
  · intro g hg p hp
    simp only [List.mem_cons, List.not_mem_nil, or_false] at hg
    rcases hg with rfl | rfl | rfl
    · obtain ⟨hx, hy⟩ := flat_cell (.inr rfl) hp
      constructor <;> simp only [hx, hy] <;> omega
    · obtain ⟨hx, hy⟩ := flat_cell (.inl rfl) hp
      constructor <;> simp only [hx, hy] <;> omega
    · obtain ⟨hlow, hhigh, hy⟩ := hname hp
      exact ⟨hlow, by dsimp only; omega, hy.ge, by dsimp only; omega⟩
  · refine .cons ?_ (.cons ?_ (List.pairwise_singleton _ _))
    · intro g hg p hp hp'
      obtain ⟨hx, -⟩ := flat_cell (.inr rfl) hp
      simp only [List.mem_cons, List.not_mem_nil, or_false] at hg
      rcases hg with rfl | rfl
      · obtain ⟨hx', -⟩ := flat_cell (.inl rfl) hp'
        dsimp only at hx hx'
        omega
      · have := hname hp'
        dsimp only at hx
        omega
    · refine List.forall_mem_singleton.mpr fun p hp hp' => ?_
      obtain ⟨hx, -⟩ := flat_cell (.inl rfl) hp
      have := hname hp'
      dsimp only at hx
      omega

/-! ## Notations -/

/-- Being tidy is kept by everything that blocks are put together with, so that it holds of every
layout. -/
theorem tidy_kept : Kept Tidy where
  solid h := h.toSolid
  mark level h := by
    have hsize := h.size level
    exact ofGlyph_tidy h.isProper level (by rw [hsize]; decide) (by rw [hsize])
  name level f :=
    ofGlyph_tidy (show (Glyph.functionName f).IsProper from trivial) level
      (Int.natCast_nonneg _) le_rfl
  tall {b glyph} level h hglyph := by
    have hsize := hglyph.size level
    have htidy := ofGlyph_tidy (hglyph.isProper h.height) level (by rw [hsize]; exact zero_le_one)
      (by rw [hsize]; exact h.height)
    exact htidy.of_perm (htidy.toSolid.on h.baseline) (.refl _)
  superscript h := h.of_perm h.toSolid.superscript (.refl _)
  start b h := h.of_perm (empty_snug.beside h.toSolid) (empty_beside_glyphs h.toSolid)
  beside _ _ ha hb := ha.beside hb
  root level h := h.root level
  fraction level ha hb := ha.fraction level hb

end Block

/-- The glyph has the size it is drawn in, and is drawn inside its area. -/
structure PlacedGlyph.Framed (g : PlacedGlyph) : Prop where
  size : g.area = Renderer.ascii.size g.glyph g.level
  covers : ∀ p, g.Draws p → g.area.Covers ⟨p.x - g.place.x, p.y - g.place.y⟩

/-- A proper glyph is drawn inside the area that it is given. -/
theorem Glyph.IsProper.framed {glyph : Glyph} (h : glyph.IsProper) (level : Int) :
    PlacedGlyph.Framed ⟨glyph, Renderer.ascii.size glyph level, level, Point.origin⟩ := by
  refine ⟨rfl, fun p ⟨c, hc⟩ => ?_⟩
  obtain ⟨hleft, hright, htop, hbottom⟩ := h.ink_inside level (PlacedGlyph.mem_marks.mp hc)
  exact ⟨hleft, hright, htop, hbottom⟩

namespace Block

/-- Unless there are calls without arguments, all glyphs are drawn inside their own areas. -/
theorem framed_kept : Kept fun b => b.Tidy ∧ ∀ g ∈ b.glyphs, g.Framed := by
  refine tidy_kept.and_glyphs (fun b h _ => h.height)
    (fun g dx dy h => ⟨h.size, fun p hp => ?_⟩) fun glyph level h => h.framed level
  have hcovers := h.covers _ (PlacedGlyph.draws_moved.mp hp)
  simp only [Point.moved] at hcovers
  simp only [PlacedGlyph.moved, Point.moved]
  rwa [show p.x - (g.place.x + dx) = p.x + -dx - g.place.x by omega,
    show p.y - (g.place.y + dy) = p.y + -dy - g.place.y by omega]

end Block
end Mathpad
