import Mathlib.Tactic.IntervalCases
import Mathpad.Proofs.Strokes

/-!
# The cells of a glyph

A glyph is drawn by strokes, and every character of a stroke has a cell of its own. Which
character a glyph has in a cell, if any, depends only on how far the cell is from its place
(`PlacedGlyph.mem_marks`), so a glyph that is moved takes its cells with it.

A proper glyph stays inside its area (`Glyph.IsProper.ink_inside`). Some areas are not filled:
those of a root, which leave room for its contents (`Glyph.ink_sqrt`).
-/
set_option autoImplicit false

namespace Mathpad

/-! ## The characters of strokes -/

namespace Stroke

/-- The characters of a stroke, each with its cell. -/
def marks (s : Stroke) : List (Point × Char) :=
  s.text.zipIdx.map fun (c, i) => (s.place.moved i 0, c)

/-- The stroke is a single character. -/
def Single (s : Stroke) : Prop := ∃ c, s.text = [c]

theorem column_single {c : Char} {p : Point} {start count : Int} :
    ∀ s ∈ column c p start count, s.Single :=
  List.forall_mem_map.mpr fun _ _ => ⟨c, rfl⟩

theorem line_single {c : Char} {p : Point} {start count : Int} :
    ∀ s ∈ line c p start count, s.Single :=
  List.forall_mem_map.mpr fun _ _ => ⟨c, rfl⟩

theorem spelled_single {name : List Char} {p : Point} : ∀ s ∈ spelled name p, s.Single :=
  List.forall_mem_map.mpr fun _ _ => ⟨_, rfl⟩

/-- A parenthesis is drawn one character at a time. -/
theorem parenthesis_single {low top bottom : Char} {p : Point} {height : Int} :
    ∀ s ∈ parenthesis low top bottom p height, s.Single := by
  unfold parenthesis
  split
  · exact List.forall_mem_singleton.mpr ⟨_, rfl⟩
  · exact List.forall_mem_append.mpr
      ⟨List.forall_mem_cons.mpr ⟨⟨_, rfl⟩, column_single⟩, List.forall_mem_singleton.mpr ⟨_, rfl⟩⟩

/-- The sign of a root is drawn one character at a time. -/
theorem root_single {inner : Area} {p : Point} : ∀ s ∈ root inner p, s.Single :=
  List.forall_mem_append.mpr ⟨List.forall_mem_cons.mpr ⟨⟨_, rfl⟩, column_single⟩,
    List.forall_mem_cons.mpr ⟨⟨_, rfl⟩, line_single⟩⟩

end Stroke

namespace Glyph

/-- The character of a text on one line in the cell at a distance from its place. -/
def textInk (text : List Char) (dx dy : Int) : Option Char :=
  if dy = 0 ∧ 0 ≤ dx then text[dx.toNat]? else none

/-- The character of a column of the same character. -/
def columnInk (c : Char) (height dx dy : Int) : Option Char :=
  if dx = 0 ∧ 0 ≤ dy ∧ dy < height then some c else none

/-- The character of a parenthesis: one that fits a single line, or a top and a bottom with bars
between them. -/
def parenthesisInk (low top bottom : Char) (height dx dy : Int) : Option Char :=
  if height ≤ 1 then columnInk low 1 dx dy
  else if dy = 0 then columnInk top 1 dx dy
  else if dy = height - 1 then columnInk bottom height dx dy
  else columnInk '|' height dx dy

/-- The character of a glyph in the cell at a distance from its place. -/
def ink : Glyph → Int → Int → Option Char
  | digit value => textInk (toString value).toList
  | point => textInk ['.']
  | functionName f => textInk f.name.toList
  | comma => textInk [',']
  | var name => textInk name.toList
  | add => textInk ['+']
  | subtract => textInk ['-']
  | multiply => textInk ['*']
  | divide => textInk ['/']
  | fraction innerWidth => fun dx dy => columnInk '-' innerWidth dy dx
  | leftParenthesis innerHeight => parenthesisInk '(' '/' '\\' innerHeight
  | rightParenthesis innerHeight => parenthesisInk ')' '\\' '/' innerHeight
  | sqrt inner => fun dx dy =>
    if dx = 0 then columnInk '\\' 1 dx (dy - inner.height)
    else if dx = 1 ∧ dy = 0 then some '.'
    else if dx = 1 then columnInk '|' inner.height 0 (dy - 1)
    else columnInk '-' inner.width dy (dx - 2)
  | cursor height => columnInk '|' height
  | placeholder => textInk ['X']

end Glyph

namespace Stroke

open Glyph (textInk columnInk parenthesisInk)

variable {p q : Point} {c d : Char}

/-- The numbers counted up are those from zero up to the bound, which is not reached. -/
theorem mem_upTo_iff {i n : Int} : i ∈ upTo n ↔ 0 ≤ i ∧ i < n := by
  refine ⟨mem_upTo, fun ⟨hlow, hhigh⟩ => List.mem_map.mpr ⟨i.toNat, ?_, ?_⟩⟩
  · exact List.mem_range.mpr (by omega)
  · exact Int.toNat_of_nonneg hlow

/-- A stroke has the characters of its text in the cells to the right of its place. -/
theorem mem_marks {text : List Char} :
    (p, c) ∈ marks ⟨text, q⟩ ↔ textInk text (p.x - q.x) (p.y - q.y) = some c := by
  have hmem : (p, c) ∈ marks ⟨text, q⟩ ↔ ∃ i : Nat, text[i]? = some c ∧ q.moved i 0 = p := by
    simp [marks, List.mem_zipIdx_iff_getElem?]
  rw [hmem, textInk]
  constructor
  · rintro ⟨i, hi, rfl⟩
    have hx : (q.moved i 0).x - q.x = i := by simp [Point.moved]
    rw [hx, if_pos ⟨by simp [Point.moved], by omega⟩]
    exact hi
  · intro h
    split_ifs at h with hline
    refine ⟨_, h, ?_⟩
    obtain ⟨x, y⟩ := p
    obtain ⟨hy, hx⟩ := hline
    simp only [Point.moved, Point.mk.injEq]
    simp only at hx hy
    omega

/-- A stroke of one character has it in the cell of its place. -/
theorem mem_marks_single : (p, c) ∈ marks ⟨[d], q⟩ ↔ p = q ∧ c = d := by
  simp [marks, Point.moved]

/-- The cells of a run of the same character, in the direction in which it runs and across. -/
theorem mem_run {start count along across : Int} :
    (∃ i, (0 ≤ i ∧ i < count) ∧ along = start + i ∧ across = 0 ∧ c = d) ↔
      columnInk d count across (along - start) = some c := by
  rw [columnInk]
  constructor
  · rintro ⟨i, hi, rfl, rfl, rfl⟩
    rw [if_pos (by omega)]
  · intro h
    split_ifs at h with hcell
    exact ⟨along - start, by omega, by omega, hcell.1, (Option.some.inj h).symm⟩

/-- A column has its character in the cells below its start. -/
theorem mem_column {start count : Int} :
    (p, c) ∈ (column d q start count).flatMap marks ↔
      columnInk d count (p.x - q.x) (p.y - q.y - start) = some c := by
  obtain ⟨x, y⟩ := p
  rw [← mem_run]
  simp only [column, List.flatMap_map, List.mem_flatMap, mem_upTo_iff, mem_marks_single,
    Point.moved, Point.mk.injEq, Int.add_zero, and_assoc]
  refine exists_congr fun i => and_congr_right fun _ => and_congr_right fun _ => ?_
  rw [and_left_comm, Int.sub_eq_iff_eq_add, Int.sub_eq_iff_eq_add]
  simp [Int.add_comm]

/-- A line has its character in the cells to the right of its start. -/
theorem mem_line {start count : Int} :
    (p, c) ∈ (line d q start count).flatMap marks ↔
      columnInk d count (p.y - q.y) (p.x - q.x - start) = some c := by
  obtain ⟨x, y⟩ := p
  rw [← mem_run]
  simp only [line, List.flatMap_map, List.mem_flatMap, mem_upTo_iff, mem_marks_single,
    Point.moved, Point.mk.injEq, Int.add_zero, and_assoc]
  refine exists_congr fun i => and_congr_right fun _ => and_congr_right fun _ => ?_
  rw [Int.sub_eq_iff_eq_add, Int.sub_eq_iff_eq_add]
  simp [Int.add_comm]

/-- A single character is a column of height one. -/
theorem mem_single :
    (p, c) ∈ marks ⟨[d], q⟩ ↔ columnInk d 1 (p.x - q.x) (p.y - q.y) = some c := by
  obtain ⟨x, y⟩ := p
  obtain ⟨u, v⟩ := q
  simp only [mem_marks_single, columnInk, Point.mk.injEq]
  grind

/-- A name that is drawn letter by letter has the same cells as one that is drawn at once. -/
theorem mem_spelled {name : List Char} :
    (p, c) ∈ (spelled name q).flatMap marks ↔ textInk name (p.x - q.x) (p.y - q.y) = some c := by
  rw [← mem_marks]
  simp [spelled, marks, Point.moved]

/-- The strokes of a parenthesis are what its shape says. -/
theorem mem_parenthesis {low top bottom : Char} {height : Int} :
    (p, c) ∈ (parenthesis low top bottom q height).flatMap marks ↔
      parenthesisInk low top bottom height (p.x - q.x) (p.y - q.y) = some c := by
  unfold parenthesis parenthesisInk
  -- a low parenthesis is one character; a high one has a top, a bottom and a column between
  by_cases hflat : height ≤ 1
  · rw [if_pos hflat, if_pos hflat, List.flatMap_singleton, mem_single]
  rw [if_neg hflat, if_neg hflat]
  rw [List.cons_append, List.flatMap_cons, List.flatMap_append, List.flatMap_singleton,
    List.mem_append, List.mem_append, mem_column, mem_single, mem_single]
  simp only [Point.moved, columnInk]
  grind

/-- The strokes of a root sign, a column and a line with their corner, are what its shape says. -/
theorem mem_root {inner : Area} :
    (p, c) ∈ (root inner q).flatMap marks ↔
      (Glyph.sqrt inner).ink (p.x - q.x) (p.y - q.y) = some c := by
  unfold root Glyph.ink
  rw [List.flatMap_append, List.flatMap_cons, List.flatMap_cons,
    List.mem_append, List.mem_append, List.mem_append, mem_column, mem_line, mem_single, mem_single]
  simp only [Point.moved, columnInk]
  grind

end Stroke

/-! ## The cells of glyphs -/

namespace PlacedGlyph

/-- The characters of a glyph, each with its cell. -/
def marks (g : PlacedGlyph) : List (Point × Char) :=
  (Stroke.ofGlyph g.place g.glyph).flatMap Stroke.marks

/-- The glyph has a character in the cell. -/
def Draws (g : PlacedGlyph) (p : Point) : Prop := ∃ c, (p, c) ∈ g.marks

/-- No cell is drawn by both glyphs. -/
def Apart (g h : PlacedGlyph) : Prop := ∀ p, g.Draws p → ¬ h.Draws p

variable {g h : PlacedGlyph} {p : Point} {c : Char}

/-- The strokes of a glyph have the characters that its ink says, and no others. -/
theorem mem_marks :
    (p, c) ∈ g.marks ↔ g.glyph.ink (p.x - g.place.x) (p.y - g.place.y) = some c := by
  obtain ⟨glyph, area, level, q⟩ := g
  have htext : ∀ text : List Char, (p, c) ∈ [Stroke.mk text q].flatMap Stroke.marks ↔
      Glyph.textInk text (p.x - q.x) (p.y - q.y) = some c := fun text => by
    rw [List.flatMap_singleton, Stroke.mem_marks]
  show (p, c) ∈ (Stroke.ofGlyph q glyph).flatMap Stroke.marks ↔ glyph.ink _ _ = some c
  cases glyph with
  | functionName f => exact Stroke.mem_spelled
  | fraction innerWidth => exact Stroke.mem_line.trans (by rw [Int.sub_zero]; rfl)
  | leftParenthesis innerHeight | rightParenthesis innerHeight => exact Stroke.mem_parenthesis
  | sqrt inner => exact Stroke.mem_root
  | cursor height => exact Stroke.mem_column.trans (by rw [Int.sub_zero]; rfl)
  | digit | point | comma | var | add | subtract | multiply | divide | placeholder =>
    exact htext _

/-- A glyph has one character in a cell at most. -/
theorem marks_unique {c' : Char} (h : (p, c) ∈ g.marks) (h' : (p, c') ∈ g.marks) : c = c' :=
  Option.some.inj ((mem_marks.mp h).symm.trans (mem_marks.mp h'))

theorem mem_marks_moved {dx dy : Int} :
    (p, c) ∈ (g.moved dx dy).marks ↔ (p.moved (-dx) (-dy), c) ∈ g.marks := by
  rw [mem_marks, mem_marks]
  simp only [moved, Point.moved]
  rw [show p.x - (g.place.x + dx) = p.x + -dx - g.place.x by omega,
    show p.y - (g.place.y + dy) = p.y + -dy - g.place.y by omega]

theorem draws_moved {dx dy : Int} : (g.moved dx dy).Draws p ↔ g.Draws (p.moved (-dx) (-dy)) :=
  exists_congr fun _ => mem_marks_moved

theorem Apart.symm (hapart : g.Apart h) : h.Apart g := fun p hh hg => hapart p hg hh

theorem Apart.moved (hapart : g.Apart h) (dx dy : Int) : (g.moved dx dy).Apart (h.moved dx dy) :=
  fun _ hg hh => hapart _ (draws_moved.mp hg) (draws_moved.mp hh)

end PlacedGlyph

namespace Glyph

/-- A glyph whose strokes are single characters. -/
def IsSimple : Glyph → Prop
  | digit value => 0 ≤ value ∧ value ≤ 9
  | var name => name.length = 1
  | _ => True

/-- A simple glyph that is not smaller than the characters it consists of. -/
def IsProper : Glyph → Prop
  | leftParenthesis height | rightParenthesis height | cursor height => 1 ≤ height
  | sqrt inner => 0 ≤ inner.width ∧ 0 ≤ inner.height
  | glyph => glyph.IsSimple

theorem IsProper.isSimple {glyph : Glyph} (h : glyph.IsProper) : glyph.IsSimple := by
  cases glyph with
  | leftParenthesis | rightParenthesis | cursor | sqrt => trivial
  | digit | point | functionName | comma | var | add | subtract | multiply | divide | fraction
    | placeholder => exact h

theorem IsProper.height_pos {glyph : Glyph} (h : glyph.IsProper) (level : Int) :
    1 ≤ (Renderer.ascii.size glyph level).height := by
  cases glyph with
  | leftParenthesis | rightParenthesis | cursor => exact h
  | sqrt inner => exact Int.le_add_of_nonneg_left h.2
  | digit | point | functionName | comma | var | add | subtract | multiply | divide | fraction
    | placeholder => exact le_rfl

theorem toString_digit {value : Int} (h : 0 ≤ value ∧ value ≤ 9) :
    ∃ c, (toString value).toList = [c] := by
  obtain ⟨hlow, hhigh⟩ := h
  interval_cases value <;> exact ⟨_, rfl⟩

/-- The strokes of a simple glyph are single characters. -/
theorem IsSimple.strokes {glyph : Glyph} (h : glyph.IsSimple) (q : Point) :
    ∀ s ∈ Stroke.ofGlyph q glyph, s.Single := by
  have hsingle : ∀ text : List Char, (∃ c, text = [c]) → ∀ s ∈ [Stroke.mk text q], s.Single := by
    intro text htext s hs
    rw [List.mem_singleton.mp hs]
    exact htext
  cases glyph with
  | digit value => exact hsingle _ (toString_digit h)
  | var name => exact hsingle _ (List.length_eq_one_iff.mp h)
  | functionName f => exact Stroke.spelled_single
  | fraction innerWidth => exact Stroke.line_single
  | leftParenthesis innerHeight | rightParenthesis innerHeight => exact Stroke.parenthesis_single
  | sqrt inner => exact Stroke.root_single
  | cursor height => exact Stroke.column_single
  | point | comma | add | subtract | multiply | divide | placeholder =>
    exact hsingle _ ⟨_, rfl⟩

theorem textInk_eq_some {text : List Char} {dx dy : Int} {c : Char}
    (h : textInk text dx dy = some c) : 0 ≤ dx ∧ dx < text.length ∧ dy = 0 := by
  rw [textInk] at h
  split_ifs at h with hline
  obtain ⟨hlt, -⟩ := List.getElem?_eq_some_iff.mp h
  omega

/-- The characters of a proper glyph are inside its area. -/
theorem IsProper.ink_inside {glyph : Glyph} (h : glyph.IsProper) (level : Int) {dx dy : Int}
    {c : Char} (hink : glyph.ink dx dy = some c) :
    0 ≤ dx ∧ dx < (Renderer.ascii.size glyph level).width ∧
      0 ≤ dy ∧ dy < (Renderer.ascii.size glyph level).height := by
  -- a text is as wide as it has characters, so only its length has to be compared
  have htext : ∀ {text : List Char} {size : Area}, textInk text dx dy = some c →
      text.length = size.width → size.height = 1 →
      0 ≤ dx ∧ dx < size.width ∧ 0 ≤ dy ∧ dy < size.height := by
    intro text size htext hwidth hheight
    have := textInk_eq_some htext
    omega
  cases glyph with
  | digit value =>
    obtain ⟨d, hd⟩ := toString_digit h
    exact htext hink (by rw [hd]; rfl) rfl
  | var name => exact htext hink (congrArg Nat.cast h) rfl
  | functionName f => exact htext hink rfl rfl
  | point | comma | add | subtract | multiply | divide | placeholder => exact htext hink rfl rfl
  | fraction innerWidth =>
    simp only [ink, columnInk] at hink
    show 0 ≤ dx ∧ dx < innerWidth ∧ 0 ≤ dy ∧ dy < 1
    grind
  | leftParenthesis height | rightParenthesis height =>
    have hheight : 1 ≤ height := h
    simp only [ink, parenthesisInk, columnInk] at hink
    show 0 ≤ dx ∧ dx < 1 ∧ 0 ≤ dy ∧ dy < height
    grind
  | cursor height =>
    simp only [ink, columnInk] at hink
    show 0 ≤ dx ∧ dx < 1 ∧ 0 ≤ dy ∧ dy < height
    grind
  | sqrt inner =>
    obtain ⟨hwidth, hheight⟩ := h
    simp only [ink, columnInk] at hink
    show 0 ≤ dx ∧ dx < inner.width + 2 ∧ 0 ≤ dy ∧ dy < inner.height + 1
    grind

/-- A root has its hook and its stem on the left of its contents, and its roof above them. -/
theorem ink_sqrt {inner : Area} {dx dy : Int} {c : Char} (h : (sqrt inner).ink dx dy = some c) :
    dx < 2 ∨ dy < 1 := by
  simp only [ink, columnInk] at h
  grind

end Glyph
end Mathpad
