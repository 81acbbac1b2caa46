import Mathpad.Proofs.Separation

/-!
# What is seen of a drawing

Characters that are written into cells of their own do not hide one another, so the canvas in
the end shows all of them, in whatever order they were written (`Canvas.putAll_depicts`), and
two canvases that show the same characters are equal (`Canvas.Depicts.unique`). In a tidy block
no cell is drawn twice; so the drawing of a row or of an expression shows all of its glyphs,
on exactly as many lines and columns as its area has (`Block.layouts_legible`).
-/
set_option autoImplicit false

namespace Mathpad

namespace Canvas

/-- The character in a cell, if it is on the canvas. -/
def cell? (canvas : Canvas) (p : Point) : Option Char :=
  if 0 ≤ p.x ∧ 0 ≤ p.y then canvas[p.y.toNat]?.bind (·[p.x.toNat]?) else none

/-- The canvas is exactly as large as the area. -/
structure HasSize (canvas : Canvas) (size : Area) : Prop where
  height : canvas.length = size.height.toNat
  width : ∀ line ∈ canvas, line.length = size.width.toNat

variable {canvas : Canvas} {size : Area} {p : Point}

/-- A blank canvas has the size that it is given. -/
theorem blank_hasSize (size : Area) : (blank size).HasSize size := by
  refine ⟨List.length_replicate, fun line hline => ?_⟩
  rw [List.eq_of_mem_replicate hline, List.length_replicate]

theorem cell?_blank (h : size.Covers p) : (blank size).cell? p = some ' ' := by
  obtain ⟨hleft, hright, htop, hbottom⟩ := h
  rw [cell?, if_pos ⟨hleft, htop⟩, blank, List.getElem?_replicate_of_lt (by omega),
    Option.bind_some, List.getElem?_replicate_of_lt (by omega)]

/-- A single character that is written on the canvas changes its own cell only. -/
theorem put_single (h : canvas.HasSize size) (hp : size.Covers p) (c : Char) :
    Meets (put canvas ⟨[c], p⟩) (fun painted => painted.HasSize size ∧
      ∀ q, painted.cell? q = if q = p then some c else canvas.cell? q) fun _ => False := by
  obtain ⟨hleft, hright, htop, hbottom⟩ := hp
  obtain ⟨hheight, hwidth⟩ := h
  have hline : p.y.toNat < canvas.length := by omega
  have hcolumn : p.x.toNat < canvas[p.y.toNat].length := by
    rw [hwidth _ (List.getElem_mem hline)]
    omega
  have hindex : Place.index? canvas.length p.y = some p.y.toNat := by
    rw [Place.index?, if_pos htop, if_pos (by omega)]
  have hget : Place.get canvas p.y = .ok canvas[p.y.toNat] := by
    rw [Place.get, hindex, Option.bind_some, List.getElem?_eq_getElem hline]
  -- the slice of the line that is replaced is the one character in the cell
  have hset : canvas[p.y.toNat].take (Place.gap canvas[p.y.toNat].length p.x) ++ [c] ++
      canvas[p.y.toNat].drop (Place.gap canvas[p.y.toNat].length (p.x + 1)) =
      canvas[p.y.toNat].set p.x.toNat c := by
    rw [Place.gap, Place.gap, if_pos hleft, if_pos (by omega), List.set_eq_take_append_cons_drop,
      if_pos hcolumn, min_eq_left (by omega), min_eq_left (by omega), List.append_assoc,
      show (p.x + 1).toNat = p.x.toNat + 1 by omega]
    rfl
  rw [put]
  dsimp only
  rw [hget, ok_bind, Place.replace, hindex, hset]
  refine ⟨⟨by rw [List.length_set, hheight], fun line hmem => ?_⟩, fun q => ?_⟩
  · rcases List.mem_or_eq_of_mem_set hmem with hmem | rfl
    · exact hwidth line hmem
    · rw [List.length_set, hwidth _ (List.getElem_mem hline)]
  · rw [cell?, cell?]
    by_cases hq : 0 ≤ q.x ∧ 0 ≤ q.y
    · rw [if_pos hq, if_pos hq, List.getElem?_set]
      by_cases hrow : p.y.toNat = q.y.toNat
      · rw [if_pos hrow, if_pos hline, Option.bind_some, List.getElem?_set, ← hrow,
          List.getElem?_eq_getElem hline, Option.bind_some]
        by_cases hcol : p.x.toNat = q.x.toNat
        · rw [if_pos hcol, if_pos hcolumn, if_pos (congrArg₂ Point.mk (by omega) (by omega))]
        · rw [if_neg hcol, if_neg (by rintro rfl; exact hcol rfl)]
      · rw [if_neg hrow, if_neg (by rintro rfl; exact hrow rfl)]
    · rw [if_neg hq, if_neg hq, if_neg (by rintro rfl; exact hq ⟨hleft, htop⟩)]

/-- No two characters are written into one cell. -/
def Consistent (marks : List (Point × Char)) : Prop :=
  ∀ p c c', (p, c) ∈ marks → (p, c') ∈ marks → c = c'

/-- The canvas has the size, shows the characters in their cells, and is blank elsewhere. -/
structure Depicts (canvas : Canvas) (size : Area) (marks : List (Point × Char)) : Prop where
  sized : canvas.HasSize size
  shown : ∀ p c, (p, c) ∈ marks → canvas.cell? p = some c
  blank : ∀ p, size.Covers p → (∀ c, (p, c) ∉ marks) → canvas.cell? p = some ' '

/-- What is written into every cell once at most is all seen in the end. -/
theorem putAll_single {strokes : List Stroke} (hcanvas : canvas.HasSize size)
    (hsingle : ∀ s ∈ strokes, s.Single)
    (hcovers : ∀ p c, (p, c) ∈ strokes.flatMap Stroke.marks → size.Covers p)
    (hmarks : Consistent (strokes.flatMap Stroke.marks)) :
    Meets (strokes.foldlM put canvas) (fun painted => painted.HasSize size ∧
      (∀ p c, (p, c) ∈ strokes.flatMap Stroke.marks → painted.cell? p = some c) ∧
      ∀ p, (∀ c, (p, c) ∉ strokes.flatMap Stroke.marks) → painted.cell? p = canvas.cell? p)
      fun _ => False := by
  induction strokes generalizing canvas with
  | nil => exact ⟨hcanvas, by simp, fun _ _ => rfl⟩
  | cons s strokes ih =>
    obtain ⟨⟨c, hc⟩, hsingles⟩ := List.forall_mem_cons.mp hsingle
    obtain ⟨text, place⟩ := s
    obtain rfl : text = [c] := hc
    have hmem : ∀ p d, (p, d) ∈ (⟨[c], place⟩ :: strokes).flatMap Stroke.marks ↔
        p = place ∧ d = c ∨ (p, d) ∈ strokes.flatMap Stroke.marks := fun p d => by
      rw [List.flatMap_cons, List.mem_append, Stroke.mem_marks_single]
    have hplace := hcovers place c ((hmem place c).mpr (.inl ⟨rfl, rfl⟩))
    rw [List.foldlM_cons]
    refine (put_single hcanvas hplace c).bind fun first ⟨hfirst, hcell⟩ => ?_
    refine (ih hfirst hsingles (fun p d h => hcovers p d ((hmem p d).mpr (.inr h)))
      fun p d d' h h' => hmarks p d d' ((hmem p d).mpr (.inr h)) ((hmem p d').mpr (.inr h'))).imp
      fun painted ⟨hsized, hshown, hrest⟩ => ⟨hsized, fun p d h => ?_, fun p h => ?_⟩
    · by_cases hlater : (p, d) ∈ strokes.flatMap Stroke.marks
      · exact hshown p d hlater
      -- nothing else is written later into the cell of the first character
      · obtain ⟨rfl, rfl⟩ := ((hmem p d).mp h).resolve_right hlater
        rw [hrest p fun d' hd' => ?_, hcell, if_pos rfl]
        obtain rfl := hmarks p d d' h ((hmem p d').mpr (.inr hd'))
        exact hlater hd'
    · have hother : p ≠ place := fun hp => h c ((hmem p c).mpr (.inl ⟨hp, rfl⟩))
      rw [hrest p fun d hd => h d ((hmem p d).mpr (.inr hd)), hcell, if_neg hother]

/-- Strokes of single characters that stay on the canvas and do not contradict each other are
painted, and nothing else is. -/
theorem putAll_depicts {size : Area} {strokes : List Stroke} (hsingle : ∀ s ∈ strokes, s.Single)
    (hcovers : ∀ p c, (p, c) ∈ strokes.flatMap Stroke.marks → size.Covers p)
    (hmarks : Consistent (strokes.flatMap Stroke.marks)) :
    Meets (strokes.foldlM put (Canvas.blank size))
      (Depicts · size (strokes.flatMap Stroke.marks)) fun _ => False :=
  (putAll_single (blank_hasSize size) hsingle hcovers hmarks).imp
    fun _ ⟨hsized, hshown, hrest⟩ => ⟨hsized, hshown, fun p hp h => by
      rw [hrest p h, cell?_blank hp]⟩

/-- Two canvases of one size that show the same are the same. -/
theorem HasSize.ext {other : Canvas} (h : canvas.HasSize size) (h' : other.HasSize size)
    (hcells : ∀ p, size.Covers p → canvas.cell? p = other.cell? p) : canvas = other := by
  refine List.ext_getElem (by rw [h.height, h'.height]) fun y hy hy' => ?_
  have hwidth := h.width _ (List.getElem_mem hy)
  have hwidth' := h'.width _ (List.getElem_mem hy')
  refine List.ext_getElem (by rw [hwidth, hwidth']) fun x hx hx' => ?_
  have hheight := h.height
  have hcell := hcells ⟨x, y⟩ ⟨Int.natCast_nonneg x, by dsimp only; omega, Int.natCast_nonneg y, by
    dsimp only
    omega⟩
  simpa [cell?, List.getElem?_eq_getElem hy, List.getElem?_eq_getElem hy',
    List.getElem?_eq_getElem hx, List.getElem?_eq_getElem hx'] using hcell

/-- What is drawn determines the canvas. -/
theorem Depicts.unique {other : Canvas} {marks marks' : List (Point × Char)}
    (h : Depicts canvas size marks) (h' : Depicts other size marks')
    (hmarks : ∀ m, m ∈ marks ↔ m ∈ marks') : canvas = other := by
  refine h.sized.ext h'.sized fun p hp => ?_
  by_cases hdrawn : ∃ c, (p, c) ∈ marks
  · obtain ⟨c, hc⟩ := hdrawn
    rw [h.shown p c hc, h'.shown p c ((hmarks _).mp hc)]
  · have hblank := not_exists.mp hdrawn
    rw [h.blank p hp hblank, h'.blank p hp fun c hc => hblank c ((hmarks _).mpr hc)]

/-- The canvas of lines of text. -/
def ofLines (lines : List String) : Canvas := lines.map String.toList

theorem ofLines_toLines (canvas : Canvas) : ofLines (toLines canvas) = canvas := by
  simp [ofLines, toLines]

end Canvas

namespace Block

open Canvas (cell? ofLines Consistent Depicts)

variable {b : Block}

/-- The characters of a block as it is seen through a window, each with its cell. -/
def marks (b : Block) (viewport : Option Viewport) : List (Point × Char) :=
  (Canvas.strokes b viewport).flatMap Stroke.marks

/-- Without a window, the characters of a block are those of its glyphs. -/
theorem mem_marks {m : Point × Char} : m ∈ b.marks none ↔ ∃ g ∈ b.glyphs, m ∈ g.marks := by
  rw [marks, Canvas.strokes, List.flatMap_assoc, List.mem_flatMap]
  rfl

/-- Whatever is seen in one cell of a tidy block is one character. -/
theorem Tidy.consistent (h : b.Tidy) : Consistent (b.marks none) := by
  intro p c c' hc hc'
  obtain ⟨g, hg, hmark⟩ := mem_marks.mp hc
  obtain ⟨u, hu, hmark'⟩ := mem_marks.mp hc'
  -- one glyph has one character in a cell, and two have no cell in common
  by_cases hsame : g = u
  · subst hsame
    exact PlacedGlyph.marks_unique hmark hmark'
  · have : Std.Symm PlacedGlyph.Apart := ⟨fun _ _ => PlacedGlyph.Apart.symm⟩
    exact absurd ⟨c', hmark'⟩ (h.apart.forall hg hu hsame p ⟨c, hmark⟩)

/-- A tidy block is drawn, and everything in it is seen. -/
theorem Tidy.draw (h : b.Tidy) :
    Meets (b.lines none) (fun lines => Depicts (ofLines lines) b.area (b.marks none))
      fun _ => False := by
  have hsingle : ∀ s ∈ Canvas.strokes b none, s.Single := by
    intro s hs
    obtain ⟨g, hg, hs⟩ := List.mem_flatMap.mp hs
    exact (h.simple g hg).strokes g.place s hs
  refine (Canvas.putAll_depicts hsingle (fun p c hc => ?_) h.consistent).bind fun canvas hcanvas => ?_
  · obtain ⟨g, hg, hmark⟩ := mem_marks.mp hc
    exact h.covers g hg p ⟨c, hmark⟩
  · rw [meets_pure, Canvas.ofLines_toLines]
    exact hcanvas

/-- All glyphs lie inside the area, none of them touches another one, and in the drawing there
are as many lines and columns as the area has, and every character of every glyph. -/
structure Legible (b : Block) : Prop where
  inside : ∀ g ∈ b.glyphs, 0 ≤ g.place.x ∧ 0 ≤ g.place.y ∧
    g.right ≤ b.area.width ∧ g.bottom ≤ b.area.height
  apart : b.glyphs.Pairwise PlacedGlyph.Apart
  drawn : ∃ lines, b.lines none = .ok lines ∧ (lines.length : Int) = b.area.height ∧
    (∀ line ∈ lines, (line.length : Int) = b.area.width) ∧
    ∀ g ∈ b.glyphs, ∀ p c, (p, c) ∈ g.marks → cell? (ofLines lines) p = some c

/-- A tidy block is drawn legibly. -/
theorem Tidy.legible (h : b.Tidy) : b.Legible where
  inside g hg := by
    have hrests := h.glyphs g hg
    rw [h.area]
    exact ⟨hrests.x, hrests.y, right_le_extent hg, bottom_le_extent hg⟩
  apart := h.apart
  drawn := by
    obtain ⟨lines, hlines, hsized, hshown, -⟩ := h.draw.exists_ok
    have hwidth := h.width_nonneg
    have hheight := h.height_nonneg
    refine ⟨lines, hlines, ?_, fun line hline => ?_, fun g hg p c hc => ?_⟩
    · have hlength := hsized.height
      rw [ofLines, List.length_map] at hlength
      omega
    · have hlength := hsized.width _ (List.mem_map_of_mem hline)
      rw [String.length_toList] at hlength
      omega
    · exact hshown p c (mem_marks.mpr ⟨g, hg, hc⟩)

end Block

/-- A digit is one of the ten, and the name of a variable a single character. -/
def Item.OneCell : Item → Prop
  | .token (.digit value) => 0 ≤ value ∧ value ≤ 9
  | .token (.var name) => name.length = 1
  | _ => True

/-- A number can be drawn, and the name of a variable is a single character. -/
def Expr.OneCell : Expr → Prop
  | .number x => x.Drawable
  | .var name => name.length = 1
  | _ => True

namespace Block

/-- A variable of one character is drawn in its cell. -/
theorem var_tidy {name : String} (h : name.length = 1) (level : Int) :
    (ofGlyph Renderer.ascii level (.var name)).Tidy :=
  ofGlyph_tidy (show (Glyph.var name).IsProper from h) level zero_le_one le_rfl

/-- An item of one cell is drawn tidily. -/
theorem admits_tidy {item : Item} (h : item.OneCell) : Admits Tidy item := by
  cases item with
  | token t =>
    cases t with
    | var name => exact var_tidy h
    | digit | point | add | subtract | multiply | divide => exact fun level => tidy_kept.mark level h
  | call f args => exact fun _ level => call_nil_tidy level f
  | sqrt | parentheses | power | fraction => trivial

/-- A node of one cell is drawn tidily. -/
theorem admitsNode_tidy {e : Expr} (h : e.OneCell) : AdmitsNode Tidy e := by
  cases e with
  | number x => exact h
  | var name => exact var_tidy h
  | call f args => exact fun _ level => call_nil_tidy level f
  | sqrt | parentheses | power | binary => trivial

/-- Every row, with a cursor anywhere in it or without one, and every expression is drawn, with
nothing in the place of anything else. -/
theorem layouts_legible :
    (∀ (row : Row) (path : Option Path) (level : Int), row.Everywhere Item.OneCell →
      Path.AddressesIf row path → ∃ b, ofRow Renderer.ascii level path row = .ok b ∧ b.Legible) ∧
    ∀ (e : Expr) (level : Int), e.Everywhere Expr.OneCell →
      ∃ b, ofExpr Renderer.ascii level e = .ok b ∧ b.Legible := by
  refine ⟨fun row path level hrow hpath => ?_, fun e level he => ?_⟩
  · have hadmits : row.Everywhere (Admits Tidy) := hrow.imp fun _ => admits_tidy
    obtain ⟨b, hb, htidy⟩ := (tidy_kept.ofRow hadmits level hpath).exists_ok
    exact ⟨b, hb, htidy.legible⟩
  · have hadmits : e.Everywhere (AdmitsNode Tidy) := he.imp fun _ => admitsNode_tidy
    obtain ⟨b, hb, htidy⟩ := (tidy_kept.ofExpr hadmits level).exists_ok
    exact ⟨b, hb, htidy.legible⟩

/-- The cursor in a root, and a fraction that is a power. -/
theorem layouts_legible_root :
    Row.Everywhere Item.OneCell [.sqrt [.digit 2], .var "x"] ∧
    Path.AddressesIf [.sqrt [.digit 2], .var "x"] (some [0, 0, 1]) ∧
    Expr.Everywhere Expr.OneCell (.power (.number (.ratio 1 3)) (.var "x")) ∧
    (∃ b, ofRow Renderer.ascii 0 (some [0, 0, 1]) [.sqrt [.digit 2], .var "x"] = .ok b ∧
      b.Legible) ∧
    ∃ b, ofExpr Renderer.ascii 0 (.power (.number (.ratio 1 3)) (.var "x")) = .ok b ∧
      b.Legible := by
  have hdigit : Row.Everywhere Item.OneCell [.digit 2] :=
    List.forall_mem_singleton.mpr (Item.everywhere_token ⟨by decide, by decide⟩)
  have hroot : (Item.sqrt [.digit 2]).Everywhere Item.OneCell :=
    Item.everywhere_iff.mpr ⟨trivial, List.forall_mem_singleton.mpr hdigit⟩
  have hrow : Row.Everywhere Item.OneCell [.sqrt [.digit 2], .var "x"] :=
    Row.everywhere_cons.mpr ⟨hroot, List.forall_mem_singleton.mpr (Item.everywhere_token rfl)⟩
  have hpath : Path.AddressesIf [.sqrt [.digit 2], .var "x"] (some [0, 0, 1]) := by
    rintro _ ⟨⟩
    have hplace : Path.Addresses [.digit 2] [(1 : Nat)] := .place le_rfl
    have hitem : ([.sqrt [.digit 2], .var "x"] : Row)[0]? = some (.sqrt [.digit 2]) := rfl
    have hslot : (Item.sqrt [.digit 2]).slots[0]? = some [.digit 2] := rfl
    exact .inside hitem hslot hplace
  have hleaf : ∀ {e : Expr}, e.operands = [] → e.OneCell → e.Everywhere Expr.OneCell :=
    fun hoperands h => Expr.everywhere_iff.mpr ⟨h, by simp [hoperands]⟩
  have hpower : Expr.Everywhere Expr.OneCell (.power (.number (.ratio 1 3)) (.var "x")) :=
    Expr.everywhere_iff.mpr ⟨trivial, List.forall_mem_cons.mpr ⟨hleaf rfl ⟨rfl, rfl⟩,
      List.forall_mem_singleton.mpr (hleaf rfl rfl)⟩⟩
  exact ⟨hrow, hpath, hpower, layouts_legible.1 _ _ 0 hrow hpath, layouts_legible.2 _ 0 hpower⟩

end Block
end Mathpad
