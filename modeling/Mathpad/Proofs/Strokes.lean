import Mathpad.Drawing.Canvas
import Mathpad.Proofs.Extents
import Mathpad.Proofs.Outcome

/-!
# Strokes stay on the canvas

Writing a stroke fails only if its line is not there. A glyph is drawn in its own lines, and a
canvas has as many lines as the block that is drawn on it is high, so a block whose area is
that of its glyphs can be drawn (`Block.Snug.lines_meets`). What lies to the left or to the
right does not matter for writing.
-/
set_option autoImplicit false

namespace Mathpad

/-! ## Glyphs -/

/-- A glyph of the size it is drawn in, which has a line. -/
structure PlacedGlyph.Standing (g : PlacedGlyph) : Prop where
  height : 1 ≤ g.area.height
  size : g.area = Renderer.ascii.size g.glyph g.level

namespace Stroke

/-- The numbers counted up are not negative and below the bound. -/
theorem mem_upTo {i n : Int} (h : i ∈ upTo n) : 0 ≤ i ∧ i < n := by
  obtain ⟨k, hk, rfl⟩ := List.mem_map.mp h
  have hlt := List.mem_range.mp hk
  have hnonneg : (0 : Int) ≤ Int.ofNat k := Int.natCast_nonneg k
  refine ⟨hnonneg, ?_⟩
  show (k : Int) < n
  omega

/-- The lines from `low` on and before `high` are those that a stroke can be in. -/
def Within (low high : Int) (s : Stroke) : Prop := low ≤ s.place.y ∧ s.place.y < high

/-- A column stays within the lines between its start and its end. -/
theorem column_within (c : Char) (p : Point) {start count : Int} {low high : Int}
    (hlow : low ≤ p.y + start) (hhigh : p.y + start + count ≤ high) :
    ∀ s ∈ column c p start count, s.Within low high := by
  intro s hs
  obtain ⟨i, hi, rfl⟩ := List.mem_map.mp hs
  obtain ⟨h0, hcount⟩ := mem_upTo hi
  show low ≤ p.y + (start + i) ∧ p.y + (start + i) < high
  omega

/-- A line stays within the line that it is drawn on. -/
theorem line_within (c : Char) (p : Point) (start count : Int) {low high : Int}
    (hlow : low ≤ p.y) (hhigh : p.y < high) :
    ∀ s ∈ line c p start count, s.Within low high := by
  intro s hs
  obtain ⟨i, -, rfl⟩ := List.mem_map.mp hs
  show low ≤ p.y + 0 ∧ p.y + 0 < high
  omega

/-- A name that is drawn letter by letter stays on its line. -/
theorem spelled_within (name : List Char) (p : Point) {low high : Int}
    (hlow : low ≤ p.y) (hhigh : p.y < high) : ∀ s ∈ spelled name p, s.Within low high := by
  intro s hs
  obtain ⟨i, -, rfl⟩ := List.mem_map.mp hs
  show low ≤ p.y + 0 ∧ p.y + 0 < high
  omega

/-- A parenthesis stays within its height. -/
theorem parenthesis_within (low top bottom : Char) (p : Point) {height : Int}
    (h : 1 ≤ height) : ∀ s ∈ parenthesis low top bottom p height, s.Within p.y (p.y + height) := by
  unfold parenthesis
  by_cases hflat : height ≤ 1
  · rw [if_pos hflat]
    intro s hs
    rw [List.mem_singleton.mp hs]
    exact ⟨le_rfl, by show p.y < _; omega⟩
  · rw [if_neg hflat]
    intro s hs
    rcases List.mem_append.mp hs with hs | hs
    · rcases List.mem_cons.mp hs with rfl | hs
      · exact ⟨le_rfl, by show p.y < _; omega⟩
      · exact column_within _ p (by omega) (by omega) s hs
    · rw [List.mem_singleton.mp hs]
      exact ⟨by show _ ≤ p.y + _; omega, by show p.y + _ < _; omega⟩

/-- The sign of a root stays within the height of what is inside and the line above. -/
theorem root_within (p : Point) {inner : Area} (h : 0 ≤ inner.height) :
    ∀ s ∈ root inner p, s.Within p.y (p.y + (inner.height + 1)) := by
  intro s hs
  rcases List.mem_append.mp hs with hs | hs
  · rcases List.mem_cons.mp hs with rfl | hs
    · exact ⟨by show _ ≤ p.y + _; omega, by show p.y + _ < _; omega⟩
    · exact column_within _ _ (by show _ ≤ p.y + 0 + 1; omega)
        (by show p.y + 0 + 1 + _ ≤ _; omega) s hs
  · rcases List.mem_cons.mp hs with rfl | hs
    · exact ⟨by show _ ≤ p.y + 0; omega, by show p.y + 0 < _; omega⟩
    · exact line_within _ p _ _ (le_rfl) (by omega) s hs

/-- A glyph is drawn in its own lines. -/
theorem ofGlyph_within {g : PlacedGlyph} (h : g.Standing) :
    ∀ s ∈ ofGlyph g.place g.glyph, s.Within g.place.y (g.place.y + g.area.height) := by
  obtain ⟨glyph, area, level, p⟩ := g
  obtain ⟨hheight, hsize⟩ := h
  obtain rfl : area = Renderer.ascii.size glyph level := hsize
  have hflat : ∀ text : List Char, ∀ s ∈ [Stroke.mk text p], s.Within p.y (p.y + 1) := by
    intro text s hs
    rw [List.mem_singleton.mp hs]
    exact ⟨le_rfl, by show p.y < _; omega⟩
  cases glyph with
  | functionName f => exact spelled_within _ p (le_rfl) (by show p.y < p.y + 1; omega)
  | fraction width => exact line_within _ p _ _ (le_rfl) (by show p.y < p.y + 1; omega)
  | leftParenthesis height | rightParenthesis height => exact parenthesis_within _ _ _ p hheight
  | sqrt inner =>
    have hinner : 1 ≤ inner.height + 1 := hheight
    exact root_within p (by omega)
  | cursor height =>
    exact column_within _ p (by show p.y ≤ p.y + 0; omega)
      (by show p.y + 0 + height ≤ p.y + height; omega)
  | digit | point | comma | var | add | subtract | multiply | divide | placeholder =>
    exact hflat _

end Stroke

/-! ## Writing on a canvas -/

namespace Canvas

/-- A stroke in one of the lines can be written, and there are as many lines as before. -/
theorem put_meets {canvas : Canvas} {s : Stroke} (h : s.Within 0 canvas.length) :
    Meets (put canvas s) (fun c => c.length = canvas.length) fun _ => False := by
  obtain ⟨hlow, hhigh⟩ := h
  have hindex : Place.index? canvas.length s.place.y = some s.place.y.toNat := by
    rw [Place.index?, if_pos hlow, if_pos hhigh]
  have hlt : s.place.y.toNat < canvas.length := by omega
  have hget : Place.get canvas s.place.y = .ok (canvas[s.place.y.toNat]) := by
    rw [Place.get, hindex, Option.bind_some, List.getElem?_eq_getElem hlt]
  rw [put, hget, ok_bind, Place.replace, hindex]
  exact List.length_set

/-- Strokes in the lines of a canvas can be written one after the other. -/
theorem putAll_meets {canvas : Canvas} {strokes : List Stroke}
    (h : ∀ s ∈ strokes, s.Within 0 canvas.length) :
    Meets (strokes.foldlM put canvas) (fun c => c.length = canvas.length) fun _ => False := by
  refine (Meets.foldlM (fun ss c => c.length = canvas.length ∧ ∀ s ∈ ss, s.Within 0 canvas.length)
    ?_ strokes ⟨rfl, h⟩).imp fun c hc => hc.1
  rintro s ss c ⟨hlength, hss⟩
  refine (put_meets (hlength ▸ hss s (by simp))).imp fun c' hc' => ?_
  exact ⟨hc'.trans hlength, fun t ht => hss t (by simp [ht])⟩

end Canvas

/-! ## Drawing a block -/

namespace Block

variable {b : Block}

/-- A block with a glyph that has a line has one too. -/
theorem Solid.height_pos (h : b.Solid) (hglyphs : ∀ g ∈ b.glyphs, g.Standing) :
    1 ≤ b.area.height := by
  obtain ⟨g, hg⟩ := List.exists_mem_of_ne_nil _ h.ne_nil
  have htop := (h.glyphs g hg).y
  have hheight := (hglyphs g hg).height
  have hbottom := bottom_le_extent hg
  rw [PlacedGlyph.bottom] at hbottom
  rw [h.area]
  omega

/-- The block is drawn on a canvas of its own size. -/
theorem Snug.lines_meets (h : b.Snug) (hglyphs : ∀ g ∈ b.glyphs, g.Standing) :
    Meets (b.lines none) (fun lines => (lines.length : Int) = b.area.height) fun _ => False := by
  have hheight := h.height_nonneg
  have hblank : ((Canvas.blank b.area).length : Int) = b.area.height := by
    rw [Canvas.blank, List.length_replicate]
    omega
  have hstrokes : ∀ s ∈ Canvas.strokes b none, s.Within 0 (Canvas.blank b.area).length := by
    intro s hs
    obtain ⟨g, hg, hs⟩ := List.mem_flatMap.mp hs
    obtain ⟨hlow, hhigh⟩ := Stroke.ofGlyph_within (hglyphs g hg) s hs
    -- the strokes lie in the lines of their glyph, and these in the lines of the block
    have htop := (h.glyphs g hg).y
    have hbottom := bottom_le_extent hg
    rw [PlacedGlyph.bottom, ← h.area] at hbottom
    rw [hblank]
    exact ⟨by omega, by omega⟩
  refine (Canvas.putAll_meets hstrokes).bind fun canvas hcanvas => ?_
  show ((canvas.map String.ofList).length : Int) = _
  rw [List.length_map, hcanvas, hblank]

end Block
end Mathpad
