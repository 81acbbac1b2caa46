import Mathpad.Drawing.Block

/-
How roots, fractions, parentheses, powers and calls are put together from the blocks of their parts.
-/
set_option autoImplicit false

namespace Mathpad.Block

/-- A root around its contents, which stand in its bottom right corner. -/
def root (r : Renderer) (level : Int) (inner : Block) : Block :=
  let sign := ofGlyph r level (.sqrt inner.area)
  sign.overlay
    (inner.moved (sign.area.width - inner.area.width - r.rootPadding)
      (sign.area.height - inner.area.height)) .second

/-- A fraction line, as wide as the wider part, between the two parts. -/
def fraction (r : Renderer) (level : Int) (top bottom : Block) : Block :=
  let line := (ofGlyph r level (.fraction (max top.area.width bottom.area.width))).below top
  (top.alongCentre line .second).alongCentre (bottom.below line) .first

/-- The parentheses for a block. -/
def brackets (r : Renderer) (level : Int) (inner : Block) : Block × Block :=
  ({ ofGlyph r level (.leftParenthesis inner.area.height) with baseline := inner.baseline },
    { ofGlyph r level (.rightParenthesis inner.area.height) with baseline := inner.baseline })

/-- A block in parentheses of its height. -/
def parenthesised (r : Renderer) (level : Int) (inner : Block) : Block :=
  let (left, right) := brackets r level inner
  row [left, inner, right]

/-- A block as an exponent that still has to find its base. -/
def superscript (exponent : Block) : Block :=
  { exponent with special := { binds := true, superscript := true } }

/-- A base with its exponent to the upper right. -/
def raised (base exponent : Block) : Block :=
  let base := base.moved 0 exponent.area.height
  base.overlay (exponent.moved base.area.width 0) .first

/-- A function's name before its arguments in parentheses. -/
def call (r : Renderer) (level : Int) (f : NamedFunction) (args : List Block) : Block :=
  let joined := row (args.intersperse (ofGlyph r level .comma))
  let (left, right) := brackets r level joined
  row [ofGlyph r level (.functionName f), left, joined, right]

end Mathpad.Block
