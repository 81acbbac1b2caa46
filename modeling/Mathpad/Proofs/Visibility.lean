import Mathlib.Data.Int.ConditionallyCompleteOrder
import Mathlib.Data.Int.Interval
import Mathlib.Data.Set.Card
import Mathlib.Order.CompletePartialOrder
import Mathlib.Order.Interval.Set.LinearOrder
import Mathpad.Proofs.Separation

/-!
# How much of an item a window shows

An item in a window covers a rectangle of cells. What a window says about it comes down to sides: a
rectangle is inside another one, or apart from it, as its intervals of columns and of rows are
(`Area.cells_subset_iff`, `Area.disjoint_cells_iff`), and what it has beyond an edge is an interval
again (`Viewport.ncard_before`, `Viewport.ncard_behind`).

An item is clipped if and only if it is not inside, and of an item that is partly in the window, or
next to it, the clips are the numbers of columns and rows beyond the edges. But an item is reported as
invisible later than it should be: only when it is apart from the window with a margin around it, which
is one cell wide on the right and below, and on the left and above one more than the item itself
(`Viewport.visibility_exact_iff`).
-/
set_option autoImplicit false

namespace Mathpad

/-! ## Rectangles of cells -/

/-- There is a cell in the area. -/
structure Area.Positive (area : Area) : Prop where
  width : 0 < area.width
  height : 0 < area.height

/-- The cells of an area with its top left corner at a place. -/
def Area.cells (area : Area) (place : Point) : Set Point :=
  {c | area.Covers (c.moved (-place.x) (-place.y))}

namespace Area

variable {a b : Area} {p q c : Point}

/-- A cell is in an area if its column and its line are. -/
theorem mem_cells :
    c ∈ a.cells p ↔
      (p.x ≤ c.x ∧ c.x < p.x + a.width) ∧ p.y ≤ c.y ∧ c.y < p.y + a.height := by
  constructor
  · rintro ⟨hleft, hright, htop, hbottom⟩
    dsimp only [Point.moved] at hleft hright htop hbottom
    omega
  · rintro ⟨⟨hleft, hright⟩, htop, hbottom⟩
    constructor <;> dsimp only [Point.moved] <;> omega

/-- A rectangle is inside another one if two opposite corners of it are. -/
theorem cells_subset_iff (ha : a.Positive) :
    a.cells p ⊆ b.cells q ↔
      (q.x ≤ p.x ∧ p.x + a.width ≤ q.x + b.width) ∧
        q.y ≤ p.y ∧ p.y + a.height ≤ q.y + b.height := by
  obtain ⟨hwidth, hheight⟩ := ha
  constructor
  · intro h
    have hfirst : p ∈ b.cells q := h (mem_cells.mpr (by omega))
    have hlast : p.moved (a.width - 1) (a.height - 1) ∈ b.cells q :=
      h (mem_cells.mpr (by dsimp only [Point.moved]; omega))
    rw [mem_cells] at hfirst hlast
    dsimp only [Point.moved] at hlast
    omega
  · intro h c hc
    rw [mem_cells] at hc ⊢
    omega

/-- Two rectangles are apart if they are in their columns, or in their rows. -/
theorem disjoint_cells_iff (ha : a.Positive) (hb : b.Positive) :
    Disjoint (a.cells p) (b.cells q) ↔
      (p.x + a.width ≤ q.x ∨ q.x + b.width ≤ p.x) ∨
        p.y + a.height ≤ q.y ∨ q.y + b.height ≤ p.y := by
  obtain ⟨hwidth, hheight⟩ := ha
  obtain ⟨hwidth', hheight'⟩ := hb
  rw [Set.disjoint_left]
  constructor
  · intro h
    -- rectangles that overlap share the first of their common columns and rows
    have hcorner := @h ⟨max p.x q.x, max p.y q.y⟩
    rw [mem_cells, mem_cells] at hcorner
    dsimp only at hcorner
    omega
  · intro h c hc hc'
    rw [mem_cells] at hc hc'
    omega

/-- The columns of an area are those from its left edge up to its right one. -/
theorem image_x_cells (ha : a.Positive) :
    Point.x '' a.cells p = Set.Ico p.x (p.x + a.width) := by
  have hheight := ha.height
  ext x
  rw [Set.mem_image, Set.mem_Ico]
  constructor
  · rintro ⟨c, hc, rfl⟩
    exact (mem_cells.mp hc).1
  · intro hx
    exact ⟨⟨x, p.y⟩, mem_cells.mpr ⟨hx, by dsimp only; omega⟩, rfl⟩

/-- The lines of an area are those from its upper edge up to its lower one. -/
theorem image_y_cells (ha : a.Positive) :
    Point.y '' a.cells p = Set.Ico p.y (p.y + a.height) := by
  have hwidth := ha.width
  ext y
  rw [Set.mem_image, Set.mem_Ico]
  constructor
  · rintro ⟨c, hc, rfl⟩
    exact (mem_cells.mp hc).2
  · intro hy
    exact ⟨⟨p.x, y⟩, mem_cells.mpr ⟨by dsimp only; omega, hy⟩, rfl⟩

end Area

/-! ## What lies beyond an edge -/

namespace Viewport

theorem excess_eq_zero {a b : Int} : excess a b = 0 ↔ a ≤ b := by
  rw [excess]
  split <;> omega

/-- What is in excess is no more than the bound allows for. -/
theorem excess_le_iff {a b n : Int} (hn : 0 ≤ n) : excess a b ≤ n ↔ a ≤ b + n := by
  rw [excess]
  split <;> omega

theorem ncard_Ico (a b : Int) : ((Set.Ico a b).ncard : Int) = max (b - a) 0 := by
  rw [← Finset.coe_Ico, Set.ncard_coe_finset, Int.card_Ico, Int.toNat_eq_max]

/-- Of an interval no more can lie in front of an edge than there is of it. -/
theorem ncard_before {p n : Int} (hn : 0 < n) :
    ((Set.Ico p (p + n) ∩ Set.Iio 0).ncard : Int) = min (excess 0 p) n := by
  rw [Set.Ico_inter_Iio, ncard_Ico, excess]
  split <;> omega

/-- How many columns or lines of an area lie beyond an edge: as many as are in excess, but no more
than there are. -/
theorem ncard_behind {p n m : Int} (hn : 0 < n) :
    ((Set.Ico p (p + n) ∩ Set.Ici m).ncard : Int) = min (excess (p + n) m) n := by
  rw [Set.Ico_inter_Ici, ncard_Ico, excess]
  split <;> omega

/-- What is cut off on each side, and that an item is clipped if anything is. -/
theorem visibility_sides (v : Viewport) (p : Point) (area : Area) :
    (v.visibility p area).top = excess 0 p.y ∧
      (v.visibility p area).bottom = excess (p.y + area.height) v.size.height ∧
      (v.visibility p area).left = excess 0 p.x ∧
      (v.visibility p area).right = excess (p.x + area.width) v.size.width ∧
      ((v.visibility p area).clipped = false ↔
        ((v.visibility p area).top = 0 ∧ (v.visibility p area).bottom = 0) ∧
          (v.visibility p area).left = 0 ∧ (v.visibility p area).right = 0) := by
  rw [visibility]
  split_ifs with h
  · obtain ⟨htop, hbottom, hleft, hright⟩ := h
    exact ⟨htop.symm, hbottom.symm, hleft.symm, hright.symm, by simp [Visibility.full]⟩
  · refine ⟨rfl, rfl, rfl, rfl, ?_⟩
    rw [iff_false_left (by simp)]
    rintro ⟨⟨htop, hbottom⟩, hleft, hright⟩
    exact h ⟨htop, hbottom, hleft, hright⟩

/-! ## What is reported -/

/-- The cells of a window. -/
def cells (v : Viewport) : Set Point := {c | v.includes c}

/-- The cells of a window with a margin around it, which is one cell wide on the right and below. -/
def widened (v : Viewport) (left top : Int) : Set Point :=
  Area.cells ⟨left + v.size.width + 1, top + v.size.height + 1⟩ ⟨-left, -top⟩

end Viewport

/-- Each clip is the number of columns, or of rows, that some cells have beyond that edge of a window. -/
structure Visibility.Counts (seen : Visibility) (cells : Set Point) (v : Viewport) : Prop where
  top : seen.top = (Point.y '' cells ∩ Set.Iio 0).ncard
  bottom : seen.bottom = (Point.y '' cells ∩ Set.Ici v.size.height).ncard
  left : seen.left = (Point.x '' cells ∩ Set.Iio 0).ncard
  right : seen.right = (Point.x '' cells ∩ Set.Ici v.size.width).ncard

/-- The report tells cells that are inside of a window from cells that are apart from it, and of any
others how much lies beyond each edge. -/
structure Visibility.IsExact (seen : Visibility) (cells : Set Point) (v : Viewport) : Prop where
  clipped : seen.clipped = false ↔ cells ⊆ v.cells
  invisible : seen.invisible = true ↔ Disjoint cells v.cells
  counts : ¬ cells ⊆ v.cells → ¬ Disjoint cells v.cells → seen.Counts cells v

namespace Viewport

variable {v : Viewport} {p : Point} {area : Area}

theorem cells_eq (v : Viewport) : v.cells = v.size.cells Point.origin := by
  ext c
  rw [Area.mem_cells]
  simp [cells, includes, Point.origin, and_assoc]

/-- An area is within a window if its four edges are. -/
theorem subset_cells_iff (ha : area.Positive) :
    area.cells p ⊆ v.cells ↔
      (0 ≤ p.x ∧ p.x + area.width ≤ v.size.width) ∧ 0 ≤ p.y ∧ p.y + area.height ≤ v.size.height := by
  rw [cells_eq, Area.cells_subset_iff ha]
  simp only [Point.origin, zero_add]

/-- An area and a window have no cell in common if the one ends where the other begins, or before.
-/
theorem disjoint_cells_iff (hv : v.size.Positive) (ha : area.Positive) :
    Disjoint (area.cells p) v.cells ↔
      (p.x + area.width ≤ 0 ∨ v.size.width ≤ p.x) ∨
        p.y + area.height ≤ 0 ∨ v.size.height ≤ p.y := by
  rw [cells_eq, Area.disjoint_cells_iff ha hv]
  simp only [Point.origin, zero_add]

/-- An area and a window with a margin have no cell in common if there is more than the margin
between them. -/
theorem disjoint_widened_iff (hv : v.size.Positive) (ha : area.Positive) {left top : Int}
    (hleft : 0 ≤ left) (htop : 0 ≤ top) :
    Disjoint (area.cells p) (v.widened left top) ↔
      (p.x + area.width + left ≤ 0 ∨ v.size.width < p.x) ∨
        p.y + area.height + top ≤ 0 ∨ v.size.height < p.y := by
  obtain ⟨hwidth, hheight⟩ := hv
  rw [widened, Area.disjoint_cells_iff ha ⟨by dsimp only; omega, by dsimp only; omega⟩]
  dsimp only
  omega

/-- The margin lies around the cells of the window. -/
theorem cells_subset_widened {left top : Int} (hleft : 0 ≤ left) (htop : 0 ≤ top) :
    v.cells ⊆ v.widened left top := by
  intro c hc
  rw [cells_eq, Area.mem_cells] at hc
  rw [widened, Area.mem_cells]
  dsimp only [Point.origin] at hc ⊢
  omega

/-- What is reported not to be clipped is what lies within the window. -/
theorem clipped_iff (ha : area.Positive) :
    (v.visibility p area).clipped = false ↔ area.cells p ⊆ v.cells := by
  obtain ⟨htop, hbottom, hleft, hright, hclipped⟩ := v.visibility_sides p area
  rw [hclipped, htop, hbottom, hleft, hright, subset_cells_iff ha]
  simp only [excess_eq_zero]
  exact and_comm

/-- The size of an item counts twice in the test whether it is off to the left or above. -/
theorem invisible_iff (hv : v.size.Positive) (ha : area.Positive) :
    (v.visibility p area).invisible = true ↔
      Disjoint (area.cells p) (v.widened (area.width + 1) (area.height + 1)) := by
  have hleft : 0 ≤ area.width + 1 := Int.le_add_one ha.width.le
  have htop : 0 ≤ area.height + 1 := Int.le_add_one ha.height.le
  rw [disjoint_widened_iff hv ha hleft htop, visibility]
  split_ifs with h
  · simp only [excess_eq_zero, Point.moved] at h
    rw [iff_false_left (by simp [Visibility.full])]
    have hwidth := ha.width
    have hheight := ha.height
    omega
  · simp only [Bool.or_eq_true, decide_eq_true_eq]
    dsimp only [Point.moved]
    omega

/-- What an item has beyond an edge is what is cut off there, but not more than there is of the item. -/
theorem ncard_beyond (v : Viewport) (p : Point) (ha : area.Positive) :
    ((Point.y '' area.cells p ∩ Set.Iio 0).ncard : Int) =
        min (v.visibility p area).top area.height ∧
      ((Point.y '' area.cells p ∩ Set.Ici v.size.height).ncard : Int) =
        min (v.visibility p area).bottom area.height ∧
      ((Point.x '' area.cells p ∩ Set.Iio 0).ncard : Int) =
        min (v.visibility p area).left area.width ∧
      ((Point.x '' area.cells p ∩ Set.Ici v.size.width).ncard : Int) =
        min (v.visibility p area).right area.width := by
  obtain ⟨htop, hbottom, hleft, hright, -⟩ := v.visibility_sides p area
  rw [htop, hbottom, hleft, hright, Area.image_y_cells ha, Area.image_x_cells ha]
  exact ⟨ncard_before ha.height, ncard_behind ha.height, ncard_before ha.width,
    ncard_behind ha.width⟩

/-- The clips count what lies beyond the edges unless they exceed the area. -/
theorem counts_iff_le (ha : area.Positive) :
    (v.visibility p area).Counts (area.cells p) v ↔
      ((v.visibility p area).top ≤ area.height ∧ (v.visibility p area).bottom ≤ area.height) ∧
        (v.visibility p area).left ≤ area.width ∧ (v.visibility p area).right ≤ area.width := by
  obtain ⟨htop, hbottom, hleft, hright⟩ := ncard_beyond v p ha
  constructor
  · rintro ⟨htop', hbottom', hleft', hright'⟩
    exact ⟨⟨left_eq_inf.mp (htop'.trans htop), left_eq_inf.mp (hbottom'.trans hbottom)⟩,
      left_eq_inf.mp (hleft'.trans hleft), left_eq_inf.mp (hright'.trans hright)⟩
  · rintro ⟨⟨htop', hbottom'⟩, hleft', hright'⟩
    rw [min_eq_left htop'] at htop
    rw [min_eq_left hbottom'] at hbottom
    rw [min_eq_left hleft'] at hleft
    rw [min_eq_left hright'] at hright
    exact ⟨htop.symm, hbottom.symm, hleft.symm, hright.symm⟩

/-- The clips are the true numbers as long as an item at least touches the window. -/
theorem counts_iff (hv : v.size.Positive) (ha : area.Positive) :
    (v.visibility p area).Counts (area.cells p) v ↔
      ¬ Disjoint (area.cells p) (v.widened 1 1) := by
  obtain ⟨htop, hbottom, hleft, hright, -⟩ := v.visibility_sides p area
  rw [counts_iff_le ha, htop, hbottom, hleft, hright, excess_le_iff ha.height.le,
    excess_le_iff ha.height.le, excess_le_iff ha.width.le, excess_le_iff ha.width.le,
    disjoint_widened_iff hv ha zero_le_one zero_le_one]
  omega

/-- A window says of every item exactly whether it lies inside, and of every item that is not apart
from the window with a margin of one cell exactly how much of it lies beyond each edge. Invisible are those
that are apart from the window with a wider margin, and the report is exact unless an item is apart
from the window but not from this margin. -/
theorem visibility_exact_iff (v : Viewport) (p : Point) (area : Area) (hv : v.size.Positive)
    (ha : area.Positive) :
    ((v.visibility p area).clipped = false ↔ area.cells p ⊆ v.cells) ∧
      ((v.visibility p area).invisible = true ↔
        Disjoint (area.cells p) (v.widened (area.width + 1) (area.height + 1))) ∧
      ((v.visibility p area).Counts (area.cells p) v ↔
        ¬ Disjoint (area.cells p) (v.widened 1 1)) ∧
      ((v.visibility p area).IsExact (area.cells p) v ↔
        ¬ (Disjoint (area.cells p) v.cells ∧
          ¬ Disjoint (area.cells p) (v.widened (area.width + 1) (area.height + 1)))) := by
  have hleft : 0 ≤ area.width + 1 := Int.le_add_one ha.width.le
  have htop : 0 ≤ area.height + 1 := Int.le_add_one ha.height.le
  refine ⟨clipped_iff ha, invisible_iff hv ha, counts_iff hv ha, ?_, ?_⟩
  · intro h
    rw [← invisible_iff hv ha, h.invisible]
    exact and_not_self
  · intro h
    refine ⟨clipped_iff ha, ?_, fun _ hmeets => (counts_iff hv ha).mpr fun hapart => hmeets ?_⟩
    · rw [invisible_iff hv ha]
      exact ⟨fun hapart => hapart.mono_right (cells_subset_widened hleft htop),
        fun hapart => by_contra fun hnear => h ⟨hapart, hnear⟩⟩
    · exact hapart.mono_right (cells_subset_widened zero_le_one zero_le_one)

/-- A line of three cells, the first of which is to the left of the window. -/
theorem visibility_exact_iff_left :
    let v : Viewport := { size := ⟨4, 2⟩ }
    let line : Area := ⟨3, 1⟩
    v.size.Positive ∧ line.Positive ∧
      v.visibility ⟨-1, 1⟩ line = { clipped := true, left := 1 } ∧
      ¬ line.cells ⟨-1, 1⟩ ⊆ v.cells ∧
      ¬ Disjoint (line.cells ⟨-1, 1⟩) (v.widened 4 2) ∧
      (v.visibility ⟨-1, 1⟩ line).Counts (line.cells ⟨-1, 1⟩) v ∧
      (v.visibility ⟨-1, 1⟩ line).IsExact (line.cells ⟨-1, 1⟩) v := by
  intro v line
  have hv : v.size.Positive := ⟨by decide, by decide⟩
  have hline : line.Positive := ⟨by decide, by decide⟩
  have hseen : v.visibility ⟨-1, 1⟩ line = { clipped := true, left := 1 } := by decide
  obtain ⟨hclipped, hinvisible, hcounts, hexact⟩ := visibility_exact_iff v ⟨-1, 1⟩ line hv hline
  have hmeets : ¬ Disjoint (line.cells ⟨-1, 1⟩) v.cells := by
    rw [disjoint_cells_iff hv hline]
    decide
  have hnear : ¬ Disjoint (line.cells ⟨-1, 1⟩) (v.widened 1 1) := fun hapart =>
    hmeets (hapart.mono_right (cells_subset_widened zero_le_one zero_le_one))
  refine ⟨hv, hline, hseen, ?_, ?_, hcounts.mpr hnear, hexact.mpr fun h => hmeets h.1⟩
  · rw [← hclipped, hseen]
    decide
  · rw [show v.widened 4 2 = v.widened (line.width + 1) (line.height + 1) from rfl, ← hinvisible, hseen]
    decide

/-- What is next to the window on the right, or further to the left than it is wide, has no cell in the
window and is not invisible. -/
theorem visibility_beside_window :
    let v : Viewport := { size := ⟨4, 2⟩ }
    (Disjoint (Area.cells ⟨1, 1⟩ ⟨4, 1⟩) v.cells ∧
      ¬ (v.visibility ⟨4, 1⟩ ⟨1, 1⟩).IsExact (Area.cells ⟨1, 1⟩ ⟨4, 1⟩) v) ∧
    Disjoint (Area.cells ⟨2, 1⟩ ⟨-3, 0⟩) v.cells ∧
      ¬ (v.visibility ⟨-3, 0⟩ ⟨2, 1⟩).IsExact (Area.cells ⟨2, 1⟩ ⟨-3, 0⟩) v := by
  intro v
  have hv : v.size.Positive := ⟨by decide, by decide⟩
  have hright : Disjoint (Area.cells ⟨1, 1⟩ ⟨4, 1⟩) v.cells := by
    rw [disjoint_cells_iff hv ⟨by decide, by decide⟩]
    decide
  have hleft : Disjoint (Area.cells ⟨2, 1⟩ ⟨-3, 0⟩) v.cells := by
    rw [disjoint_cells_iff hv ⟨by decide, by decide⟩]
    decide
  exact ⟨⟨hright, fun h => absurd (h.invisible.mpr hright) (by decide)⟩,
    hleft, fun h => absurd (h.invisible.mpr hleft) (by decide)⟩

end Viewport
end Mathpad
