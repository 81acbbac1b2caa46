import Mathpad.Drawing.Block
import Mathpad.Item.Place

/-
Drawing blocks in text.

A canvas is a list of lines, blank at first, as large as the window or, without one, as the block.
Every glyph is a sequence of strokes: pieces of text, mostly single characters, each with the place
where it goes. A glyph that is not wholly inside the window is left out, but of a fraction line the
part inside is drawn.
-/
set_option autoImplicit false

namespace Mathpad

/-- The lines of a drawing from the top down. -/
abbrev Canvas := List (List Char)

/-- A text and the place of its first character. -/
structure Stroke where
  text : List Char
  place : Point
  deriving DecidableEq, Repr

namespace Stroke

/-- The whole numbers from `0` up to below `n`; none if `n` is negative. -/
def upTo (n : Int) : List Int := (List.range n.toNat).map Int.ofNat

/-- A column of the same character. -/
def column (c : Char) (p : Point) (start count : Int) : List Stroke :=
  (upTo count).map fun i => ⟨[c], p.moved 0 (start + i)⟩

/-- A line of the same character. -/
def line (c : Char) (p : Point) (start count : Int) : List Stroke :=
  (upTo count).map fun i => ⟨[c], p.moved (start + i) 0⟩

/-- A parenthesis, which is curved at its ends when it is higher than one line. -/
def parenthesis (low top bottom : Char) (p : Point) (height : Int) : List Stroke :=
  if height ≤ 1 then [⟨[low], p⟩]
  else
    ⟨[top], p⟩ :: column '|' p 1 (height - 2) ++ [⟨[bottom], p.moved 0 (height - 1)⟩]

/-- A root: the hook at the bottom left, the stem, and the roof over the contents. -/
def root (inner : Area) (p : Point) : List Stroke :=
  ⟨['\\'], p.moved 0 inner.height⟩ :: column '|' (p.moved 1 0) 1 inner.height ++
    ⟨['.'], p.moved 1 0⟩ :: line '-' p 2 inner.width

/-- A name, one character after the other. -/
def spelled (name : List Char) (p : Point) : List Stroke :=
  name.zipIdx.map fun (c, i) => ⟨[c], p.moved i 0⟩

/-- The strokes of a glyph at a point. -/
def ofGlyph (p : Point) : Glyph → List Stroke
  | .digit value => [⟨(toString value).toList, p⟩]
  | .point => [⟨['.'], p⟩]
  | .functionName f => spelled f.name.toList p
  | .comma => [⟨[','], p⟩]
  | .var name => [⟨name.toList, p⟩]
  | .add => [⟨['+'], p⟩]
  | .subtract => [⟨['-'], p⟩]
  | .multiply => [⟨['*'], p⟩]
  | .divide => [⟨['/'], p⟩]
  | .fraction innerWidth => line '-' p 0 innerWidth
  | .leftParenthesis innerHeight => parenthesis '(' '/' '\\' p innerHeight
  | .rightParenthesis innerHeight => parenthesis ')' '\\' '/' p innerHeight
  | .sqrt inner => root inner p
  | .cursor height => column '|' p 0 height
  | .placeholder => [⟨['X'], p⟩]

/-- The strokes of a glyph as it is seen: all of them, none, or what is left of a fraction line
between the left and the right edge. -/
def ofSeen (g : PlacedGlyph) (p : Point) (seen : Visibility) : List Stroke :=
  if ¬ seen.clipped then ofGlyph p g.glyph
  else if seen.invisible then []
  else
    match g.glyph with
    | .fraction innerWidth =>
      if seen.top ≠ 0 ∨ seen.bottom ≠ 0 then []
      else
        ofGlyph (if seen.left ≠ 0 then ⟨0, p.y⟩ else p)
          (.fraction (innerWidth - seen.left - seen.right))
    | _ => []

end Stroke

namespace Canvas

/-- A canvas of the size, with blanks only. -/
def blank (size : Area) : Canvas :=
  List.replicate size.height.toNat (List.replicate size.width.toNat ' ')

/-- Writes a stroke over one character of its line. -/
def put (canvas : Canvas) (s : Stroke) : Outcome Canvas := do
  let line ← Place.get canvas s.place.y
  let before := line.take (Place.gap line.length s.place.x)
  let after := line.drop (Place.gap line.length (s.place.x + 1))
  Place.replace canvas s.place.y (before ++ s.text ++ after)

/-- The strokes of a block through a window. -/
def strokes (b : Block) (viewport : Option Viewport) : List Stroke :=
  b.glyphs.flatMap fun g =>
    Stroke.ofSeen g (Viewport.locate viewport g.place) (Viewport.look viewport g.place g.area)

/-- A block drawn through a window. -/
def draw (b : Block) (viewport : Option Viewport) : Outcome Canvas :=
  let size := match viewport with
    | some v => v.size
    | none => b.area
  (strokes b viewport).foldlM put (blank size)

/-- The lines as text. -/
def toLines (canvas : Canvas) : List String := canvas.map String.ofList

end Canvas

namespace Block

/-- The lines of a block drawn through a window. -/
def lines (b : Block) (viewport : Option Viewport) : Outcome (List String) := do
  return (← Canvas.draw b viewport).toLines

end Block
end Mathpad
