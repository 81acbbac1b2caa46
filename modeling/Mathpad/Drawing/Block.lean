import Mathpad.Drawing.Glyph

/-
Blocks: glyphs at their places, with a baseline along which blocks are put side by side.

The baseline is a row, counted from the top. Blocks never reach above or to the left of their origin,
so to bring two baselines together the block with the smaller one moves down. An exponent is the one
block that is placed otherwise: it belongs to its left neighbour before anything else does, and it
stands above it.
-/
set_option autoImplicit false

namespace Mathpad

/-- A glyph at its place, with the size that it was given there. -/
structure PlacedGlyph where
  glyph : Glyph
  area : Area
  level : Int
  place : Point
  deriving DecidableEq, Repr

namespace PlacedGlyph

/-- The glyph at a place further right and further down. -/
def moved (g : PlacedGlyph) (dx dy : Int) : PlacedGlyph := { g with place := g.place.moved dx dy }

end PlacedGlyph

/-- How a block behaves when it is put beside others. -/
structure Special where
  /-- It is joined to its left neighbour first. -/
  binds : Bool := false
  /-- It is placed above its left neighbour. -/
  superscript : Bool := false
  deriving DecidableEq, Repr

/-- Glyphs with the area that they take up, the line of their baseline, and what is special about
putting them beside others. -/
structure Block where
  glyphs : List PlacedGlyph := []
  baseline : Int := 0
  area : Area := ⟨0, 0⟩
  special : Special := {}
  deriving DecidableEq, Repr

namespace Block

/-! ## Single blocks -/

/-- The block without glyphs. -/
def empty : Block := {}

/-- The least area from the origin that covers all glyphs. -/
def extent (glyphs : List PlacedGlyph) : Area :=
  ⟨glyphs.foldl (fun w g => max w (g.place.x + g.area.width)) 0,
    glyphs.foldl (fun h g => max h (g.place.y + g.area.height)) 0⟩

/-- The block of some glyphs, as large as they reach. -/
def ofGlyphs (glyphs : List PlacedGlyph) (baseline : Int) : Block :=
  { glyphs, baseline, area := extent glyphs }

/-- One glyph at the origin, with the baseline through its middle. -/
def ofGlyph (r : Renderer) (level : Int) (glyph : Glyph) : Block :=
  let area := r.size glyph level
  { glyphs := [⟨glyph, area, level, Point.origin⟩], baseline := area.height / 2, area }

/-- The block with everything further right and further down. -/
def moved (b : Block) (dx dy : Int) : Block :=
  let glyphs := b.glyphs.map (·.moved dx dy)
  { b with glyphs, baseline := b.baseline + dy, area := extent glyphs }

/-- `b` moved to where `other` ends on the right. -/
def rightOf (b other : Block) : Block := b.moved other.area.width 0

/-- `b` moved to where `other` ends at the bottom. -/
def below (b other : Block) : Block := b.moved 0 other.area.height

/-! ## Two blocks -/

/-- The block whose baseline a union keeps. -/
inductive Leader where
  | first
  | second
  deriving DecidableEq, Repr

/-- The baseline of two blocks, which is that of the one that leads. -/
def Leader.baseline (l : Leader) (a b : Block) : Int :=
  match l with
  | first => a.baseline
  | second => b.baseline

/-- Both blocks where they are. -/
def overlay (a b : Block) (leader : Leader) : Block :=
  ofGlyphs (a.glyphs ++ b.glyphs) (leader.baseline a b)

/-- Both blocks on one baseline, or a superscript above what it belongs to. -/
def alongBaseline (a b : Block) : Block :=
  if b.special.superscript then (a.moved 0 b.area.height).overlay b .first
  else
    let (upper, lower) := if a.baseline < b.baseline then (a, b) else (b, a)
    ofGlyphs ((upper.moved 0 (lower.baseline - upper.baseline)).glyphs ++ lower.glyphs)
      lower.baseline

/-- Both blocks with their middles on one vertical line. -/
def alongCentre (a b : Block) (leader : Leader) : Block :=
  let difference := a.area.width / 2 - b.area.width / 2
  let glyphs :=
    if difference < 0 then (a.moved (-difference) 0).glyphs ++ b.glyphs
    else (b.moved difference 0).glyphs ++ a.glyphs
  ofGlyphs glyphs (leader.baseline a b)

/-! ## Rows of blocks -/

/-- Adds a block to a row whose last block comes first, joined to that one if it binds. -/
def attach (row : List Block) (b : Block) : List Block :=
  match row with
  | left :: more =>
    if b.special.binds then left.alongBaseline (b.rightOf left) :: more else b :: row
  | [] => [b]

/-- Blocks side by side on one baseline. -/
def row (bs : List Block) : Block :=
  (bs.foldl attach []).reverse.foldl (fun done b => done.alongBaseline (b.rightOf done)) empty

end Block
end Mathpad
