/-
Areas, points and the window through which a drawing is seen.

The x axis points to the right and the y axis down. A window shows the part of a drawing that begins
at its offset. What lies in the window as a whole is visible; of anything else it is said how much
lies beyond each edge, and whether it may be passed over when drawing.
-/
set_option autoImplicit false

namespace Mathpad

/-- A width and a height in columns and lines. -/
structure Area where
  width : Int
  height : Int
  deriving DecidableEq, Repr

/-- A place, either in a drawing or in a window; it may have negative coordinates. -/
structure Point where
  x : Int
  y : Int
  deriving DecidableEq, Repr

namespace Point

/-- The upper left corner of everything. -/
def origin : Point := ⟨0, 0⟩

/-- A point further right and further down. -/
def moved (p : Point) (dx dy : Int) : Point := ⟨p.x + dx, p.y + dy⟩

end Point

/-- A window on a drawing. -/
structure Viewport where
  size : Area
  offset : Point := Point.origin
  deriving DecidableEq, Repr

/-- How much of an item lies outside a window. -/
structure Visibility where
  clipped : Bool := false
  invisible : Bool := false
  top : Int := 0
  bottom : Int := 0
  left : Int := 0
  right : Int := 0
  deriving DecidableEq, Repr

namespace Visibility

/-- Nothing lies outside. -/
def full : Visibility := {}

end Visibility

namespace Viewport

/-- A point of the drawing as a point of the window. -/
def toWindow (v : Viewport) (p : Point) : Point := p.moved (-v.offset.x) (-v.offset.y)

/-- Whether a point of the window lies in it. -/
def includes (v : Viewport) (p : Point) : Bool :=
  0 ≤ p.x && p.x < v.size.width && 0 ≤ p.y && p.y < v.size.height

/-- By how much `a` exceeds `b`. -/
def excess (a b : Int) : Int := if b < a then a - b else 0

/-- How an area with its top left corner at a point of the window is seen. It may be passed over when
it lies to the right of the window or below it, or more than its own size to the left or above. -/
def visibility (v : Viewport) (p : Point) (area : Area) : Visibility :=
  let finish := p.moved area.width area.height
  let top := excess 0 p.y
  let bottom := excess finish.y v.size.height
  let left := excess 0 p.x
  let right := excess finish.x v.size.width
  if top = 0 ∧ bottom = 0 ∧ left = 0 ∧ right = 0 then Visibility.full
  else
    { clipped := true,
      invisible := finish.x + area.width < 0 || finish.y + area.height < 0 ||
        v.size.width < p.x || v.size.height < p.y,
      top, bottom, left, right }

/-- The point at which a point of a drawing appears; without a window it stays where it is. -/
def locate (v : Option Viewport) (p : Point) : Point :=
  match v with
  | some v => v.toWindow p
  | none => p

/-- How an area in a drawing is seen; without a window all of it is. -/
def look (v : Option Viewport) (p : Point) (area : Area) : Visibility :=
  match v with
  | some v => v.visibility (v.toWindow p) area
  | none => Visibility.full

end Viewport
end Mathpad
