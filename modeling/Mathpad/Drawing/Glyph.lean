import Mathpad.Drawing.Geometry
import Mathpad.Item.Basic

/-
Glyphs, the smallest things that are drawn, and how large they are.

A glyph that spans others knows their size. How large a glyph itself is depends on the renderer and
on how many times sizes have been reduced, once for every exponent around it. In text nothing is
reduced, and most glyphs are a single character.
-/
set_option autoImplicit false

namespace Mathpad

/-- What is drawn in one piece. Some glyphs span other ones, and come with the size of those. -/
inductive Glyph where
  | digit (value : Int)
  | point
  | functionName (f : NamedFunction)
  | comma
  | var (name : String)
  | add
  | subtract
  | multiply
  | divide
  | fraction (innerWidth : Int)
  | leftParenthesis (innerHeight : Int)
  | rightParenthesis (innerHeight : Int)
  | sqrt (inner : Area)
  | cursor (height : Int)
  | placeholder
  deriving DecidableEq, Repr

namespace Glyph

/-- The glyph of a token. -/
def ofToken : Token → Glyph
  | .add => add
  | .subtract => subtract
  | .multiply => multiply
  | .divide => divide
  | .point => point
  | .digit value => digit value
  | .var name => var name

/-- Whether a glyph is a cursor, of any height. -/
def isCursor : Glyph → Bool
  | cursor _ => true
  | _ => false

end Glyph

/-- What has to be known of a way to draw before a drawing can be laid out. -/
structure Renderer where
  /-- The size of a glyph at a level of size reduction. -/
  size : Glyph → Int → Area
  /-- The gap between the right end of a root and its contents. -/
  rootPadding : Int

namespace Renderer

/-- Drawing in text, one character to a cell. -/
def ascii : Renderer where
  size glyph _ :=
    match glyph with
    | .functionName f => ⟨f.name.length, 1⟩
    | .fraction innerWidth => ⟨innerWidth, 1⟩
    | .leftParenthesis innerHeight => ⟨1, innerHeight⟩
    | .rightParenthesis innerHeight => ⟨1, innerHeight⟩
    | .sqrt inner => ⟨inner.width + 2, inner.height + 1⟩
    | .cursor height => ⟨1, height⟩
    | _ => ⟨1, 1⟩
  rootPadding := 0

end Renderer
end Mathpad
