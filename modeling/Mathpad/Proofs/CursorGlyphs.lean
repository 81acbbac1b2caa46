import Mathpad.Proofs.GlyphCounts

/-!
# The glyph of the cursor

Notations move glyphs and set them side by side; they do not change the size that the renderer gave a
glyph. So, what is true of single glyphs wherever they stand is true of all glyphs of a layout, be it
with a cursor or without one (`Block.ofRow_forall`): every glyph has its size (`Block.ofRow_sized`),
and without a path none is a cursor (`Block.cursors_of_ofRow_none`). These do not speak of whether
there is a layout, which is why they ask for nothing of the path.

A path that can be followed leads to a layout with exactly one cursor, and to the glyphs of the layout
without it (`Block.ofRow_one_cursor`).
-/
set_option autoImplicit false

namespace Mathpad

/-- A property of glyphs that does not depend on the place, and that single glyphs have in the size
that the renderer gives them; cursors need have it only where `C` is true. -/
structure Glyphwise (r : Renderer) (C : Prop) (G : PlacedGlyph → Prop) : Prop where
  moved : ∀ g dx dy, G g → G (g.moved dx dy)
  single : ∀ (glyph : Glyph) (level : Int), (glyph.isCursor = true → C) →
    G ⟨glyph, r.size glyph level, level, Point.origin⟩

/-- The glyph has the size that the renderer gives it. -/
def PlacedGlyph.Sized (r : Renderer) (g : PlacedGlyph) : Prop := g.area = r.size g.glyph g.level

namespace Block

variable {r : Renderer} {level : Int} {a b : Block} {C : Prop} {G : PlacedGlyph → Prop}

/-! ## Every glyph of a layout -/

/-- All glyphs of the block have the property. -/
def AllGlyphs (G : PlacedGlyph → Prop) (b : Block) : Prop := ∀ g ∈ b.glyphs, G g

section Glyphwise

variable (hG : Glyphwise r C G)

include hG

theorem allGlyphs_cursor (h : C) (height : Int) :
    (ofGlyph r level (.cursor height)).AllGlyphs G :=
  List.forall_mem_singleton.mpr (hG.single _ _ fun _ => h)

/-- Any other glyph has the property in the size that the renderer gives it. -/
theorem allGlyphs_ofGlyph {glyph : Glyph} (h : glyph.isCursor = false) :
    (ofGlyph r level glyph).AllGlyphs G :=
  List.forall_mem_singleton.mpr (hG.single _ _ fun hcursor => by simp [h] at hcursor)

theorem AllGlyphs.moved (h : b.AllGlyphs G) (dx dy : Int) : (b.moved dx dy).AllGlyphs G :=
  forall_moved hG.moved h dx dy

theorem AllGlyphs.beside (ha : a.AllGlyphs G) (hb : b.AllGlyphs G) : (a.beside b).AllGlyphs G :=
  forall_alongBaseline hG.moved ha (hb.moved hG _ _)

/-- A row of blocks has the property. -/
theorem allGlyphs_row {bs : List Block} (h : ∀ b ∈ bs, b.AllGlyphs G) : (row bs).AllGlyphs G := by
  have hempty : empty.AllGlyphs G := List.forall_mem_nil _
  by_cases hnil : bs = []
  · rw [hnil]
    exact hempty
  · exact row_forall (fun _ _ ha hb => ha.beside hG hb) (fun _ hb => hempty.beside hG hb) hnil h

theorem AllGlyphs.root (h : b.AllGlyphs G) : (root r level b).AllGlyphs G :=
  List.forall_mem_append.mpr ⟨allGlyphs_ofGlyph hG rfl, h.moved hG _ _⟩

/-- A fraction has the property. -/
theorem AllGlyphs.fraction (ha : a.AllGlyphs G) (hb : b.AllGlyphs G) :
    (fraction r level a b).AllGlyphs G := by
  have hline : (ofGlyph r level (.fraction (max a.area.width b.area.width))).AllGlyphs G :=
    allGlyphs_ofGlyph hG rfl
  exact forall_alongCentre hG.moved (forall_alongCentre hG.moved ha (hline.moved hG _ _) _)
    (hb.moved hG _ _) _

/-- Parentheses and what they stand around have the property. -/
theorem AllGlyphs.parenthesised (h : b.AllGlyphs G) : (parenthesised r level b).AllGlyphs G := by
  refine allGlyphs_row hG fun c hc => ?_
  simp only [List.mem_cons, List.not_mem_nil, or_false] at hc
  rcases hc with rfl | rfl | rfl
  · exact allGlyphs_ofGlyph hG rfl
  · exact h
  · exact allGlyphs_ofGlyph hG rfl

/-- A call has the property. -/
theorem allGlyphs_call (f : NamedFunction) {args : List Block} (h : ∀ b ∈ args, b.AllGlyphs G) :
    (call r level f args).AllGlyphs G := by
  have hjoined : (row (args.intersperse (ofGlyph r level .comma))).AllGlyphs G := by
    refine allGlyphs_row hG fun c hc => ?_
    rcases mem_intersperse hc with rfl | hc
    · exact allGlyphs_ofGlyph hG rfl
    · exact h c hc
  refine allGlyphs_row hG fun c hc => ?_
  simp only [List.mem_cons, List.not_mem_nil, or_false] at hc
  rcases hc with rfl | rfl | rfl | rfl
  · exact allGlyphs_ofGlyph hG rfl
  · exact allGlyphs_ofGlyph hG rfl
  · exact hjoined
  · exact allGlyphs_ofGlyph hG rfl

/-! ### Layouts

A layout has a cursor only if it has a path. -/

/-- The blocks of a row have the property, with a cursor among them only where cursors have it. -/
theorem ofItemBlocks_forall {target : Path.Target} (ht : target = .nowhere ∨ C) {bs : List Block}
    (h : ∀ b ∈ bs, b.AllGlyphs G) :
    Meets (ofItemBlocks r level target bs) (AllGlyphs G) fun _ => True := by
  have hcursor : Meets (withCursor r level target bs) (fun cs => ∀ b ∈ cs, b.AllGlyphs G)
      fun _ => True := by
    cases target with
    | nowhere | into => exact h
    | cursor place =>
      refine Meets.after fun beside => ?_
      intro b hb
      rcases List.eq_or_mem_of_mem_insertIdx hb with rfl | hb
      · exact allGlyphs_cursor hG (ht.resolve_left (by simp)) beside.area.height
      · exact h b hb
  refine hcursor.bind fun cs hcs => ?_
  cases cs with
  | nil => exact allGlyphs_row hG (List.forall_mem_singleton.mpr (allGlyphs_ofGlyph hG rfl))
  | cons c cs => exact allGlyphs_row hG hcs

omit hG in
/-- What comes of no path is no path. -/
theorem meets_or {α : Type} {o : Outcome α} {x : α} (h : o = .ok x ∨ C) :
    Meets o (fun y => y = x ∨ C) fun _ => True := by
  rcases h with rfl | h
  · exact .inl rfl
  · exact (meets_true o).imp fun _ _ => .inr h

omit hG in
/-- The items of a row have the property one by one; a cursor is in one of them only where cursors
have it. -/
theorem ofItems_forall {items : List Item} {target : Path.Target} (ht : target = .nowhere ∨ C)
    {index : Nat} (h : ∀ item ∈ items, ∀ path, (path = none ∨ C) →
      Meets (ofItem r level path item) (AllGlyphs G) fun _ => True) :
    Meets (ofItems r level target index items) (fun bs => ∀ b ∈ bs, b.AllGlyphs G)
      fun _ => True := by
  induction items generalizing index with
  | nil => exact List.forall_mem_nil _
  | cons item items ih =>
    obtain ⟨hitem, hitems⟩ := List.forall_mem_cons.mp h
    have hinside : target.inside index = none ∨ C := ht.imp_left fun hnowhere => by
      rw [hnowhere]
      rfl
    exact (hitem _ hinside).bind fun b hb => (ih hitems).bind fun bs hbs =>
      List.forall_mem_cons.mpr ⟨hb, hbs⟩

omit hG in
/-- Going into a row of an item brings in no cursor. -/
theorem intoSlot_meets {path : Option Path} (hpath : path = none ∨ C) (slot : Int) :
    Meets (Path.intoSlot path slot) (fun inside => inside = none ∨ C) fun _ => True :=
  meets_or (hpath.imp_left fun hnone => by rw [hnone]; rfl)

omit hG in
/-- The arguments of a call have the property one by one; a cursor is in one of them only where
cursors have it. -/
theorem ofArgs_forall {args : List Row} {path : Option Path} (hpath : path = none ∨ C) {slot : Nat}
    (h : ∀ row ∈ args, ∀ path, (path = none ∨ C) →
      Meets (ofRow r level path row) (AllGlyphs G) fun _ => True) :
    Meets (ofArgs r level path slot args) (fun bs => ∀ b ∈ bs, b.AllGlyphs G) fun _ => True := by
  induction args generalizing slot with
  | nil => exact List.forall_mem_nil _
  | cons arg args ih =>
    obtain ⟨harg, hargs⟩ := List.forall_mem_cons.mp h
    rw [ofArgs_cons]
    exact (intoSlot_meets hpath slot).bind fun inside hinside => (harg inside hinside).bind
      fun b hb => (ih hargs).bind fun bs hbs => List.forall_mem_cons.mpr ⟨hb, hbs⟩

/-- All glyphs of an item have the property if those of the rows inside it have it. -/
theorem ofItem_forall {item : Item} (h : ∀ inner ∈ item.slots, ∀ level path, (path = none ∨ C) →
    Meets (ofRow r level path inner) (AllGlyphs G) fun _ => True) (path : Option Path)
    (hpath : path = none ∨ C) : Meets (ofItem r level path item) (AllGlyphs G) fun _ => True := by
  -- without a path nothing is entered; where there is one, cursors are allowed
  have hinto := intoSlot_meets hpath 0
  cases item with
  | token t => exact allGlyphs_ofGlyph hG (by cases t <;> rfl)
  | sqrt inner =>
    rw [ofItem_sqrt]
    exact hinto.bind fun inside hinside =>
      (h inner (by simp [Item.slots]) _ inside hinside).bind fun b hb => hb.root hG
  | parentheses inner =>
    rw [ofItem_parentheses]
    exact hinto.bind fun inside hinside =>
      (h inner (by simp [Item.slots]) _ inside hinside).bind fun b hb => hb.parenthesised hG
  | power exponent =>
    rw [ofItem_power]
    exact hinto.bind fun inside hinside =>
      (h exponent (by simp [Item.slots]) _ inside hinside).bind fun b hb => hb
  | fraction top bottom =>
    rw [ofItem_fraction]
    have hparts : Meets (Path.intoFraction path) (fun parts => parts = (none, none) ∨ C)
        fun _ => True :=
      meets_or (hpath.imp_left fun hnone => by rw [hnone]; rfl)
    refine hparts.bind fun parts hparts => ?_
    have hfirst : parts.1 = none ∨ C := hparts.imp_left (congrArg Prod.fst)
    have hsecond : parts.2 = none ∨ C := hparts.imp_left (congrArg Prod.snd)
    refine (h top (by simp [Item.slots]) _ _ hfirst).bind fun a ha => ?_
    exact (h bottom (by simp [Item.slots]) _ _ hsecond).bind fun b hb => ha.fraction hG hb
  | call f args =>
    rw [Block.ofItem]
    exact (ofArgs_forall hpath fun arg harg path hpath => h arg harg level path hpath).bind
      fun bs hbs => allGlyphs_call hG f hbs

/-- All glyphs of a layout have the property. -/
theorem ofRow_forall (row : Row) (level : Int) (path : Option Path) (hpath : path = none ∨ C) :
    Meets (ofRow r level path row) (AllGlyphs G) fun _ => True := by
  induction row using Row.induction_inside generalizing level path with
  | inside row ih =>
    have htarget : Meets (Path.target path row.length) (fun target => target = .nowhere ∨ C)
        fun _ => True :=
      meets_or (hpath.imp_left fun hnone => by rw [hnone]; rfl)
    refine htarget.bind fun target ht => ?_
    have hitems : Meets (ofItems r level target 0 row) (fun bs => ∀ b ∈ bs, b.AllGlyphs G)
        fun _ => True :=
      ofItems_forall ht fun item hitem path hpath => ofItem_forall hG (ih item hitem) path hpath
    exact hitems.bind fun bs hbs => ofItemBlocks_forall hG ht hbs

end Glyphwise

/-- Every glyph of a layout has the size that the renderer gives it. -/
theorem ofRow_sized (row : Row) (level : Int) (path : Option Path) :
    Meets (ofRow r level path row) (AllGlyphs (·.Sized r)) fun _ => True :=
  ofRow_forall (C := True) ⟨fun _ _ _ h => h, fun _ _ _ => rfl⟩ row level path (.inr trivial)

/-! ## Cursors -/

/-- How many cursors there are among the glyphs. -/
def cursors (b : Block) : Nat := b.glyphs.countP (·.glyph.isCursor)

/-- There are as many cursors among the glyphs with their places as without. -/
theorem cursors_eq_countP (b : Block) : b.cursors = b.kinds.countP (·.isCursor = true) := by
  rw [cursors, kinds, Multiset.coe_countP, List.countP_map]
  simp [Function.comp_def]

/-- Without a path there is no cursor. -/
theorem cursors_of_ofRow_none {row : Row} (h : ofRow r level none row = .ok b) : b.cursors = 0 := by
  have hnone := (ofRow_forall (r := r) (C := False) (G := fun g => g.glyph.isCursor = false)
    ⟨fun _ _ _ h => h, fun glyph _ hcursor => by simpa using hcursor⟩ row level none
    (.inl rfl)).of_ok h
  refine List.countP_eq_zero.mpr fun g hg => ?_
  simp [hnone g hg]

/-- A cursor of any height has the shape of a cursor, and nothing else has. -/
theorem isCursor_shape (glyph : Glyph) : glyph.shape.isCursor = glyph.isCursor := by
  cases glyph <;> rfl

theorem countP_placeholders (row : Row) : row.placeholders.countP (·.isCursor = true) = 0 := by
  unfold Row.placeholders
  split <;> rfl

/-- A block that gains a cursor has one more than before. -/
theorem Gains.cursors {around gone : Multiset Glyph} (h : Gains around gone a b)
    (hgone : gone.countP (·.isCursor = true) = 0) : b.cursors = a.cursors + 1 := by
  obtain ⟨height, same, kept, grown, ha, hb, hkept, hgrown⟩ := h
  have hshape : ∀ s : Multiset Glyph, s.countP (·.isCursor = true) =
      (s.map Glyph.shape).countP (·.isCursor = true) := by
    intro s
    rw [Multiset.countP_map, Multiset.countP_eq_card_filter]
    simp only [isCursor_shape]
  have hsame : grown.countP (·.isCursor = true) = kept.countP (·.isCursor = true) := by
    rw [hshape grown, hgrown, ← hkept, ← hshape]
  have hone : ({.cursor height} : Multiset Glyph).countP (·.isCursor = true) = 1 := rfl
  rw [cursors_eq_countP, cursors_eq_countP, ha, hb]
  simp only [Multiset.countP_add, hsame, hone, hgone]
  omega

/-- Where a path leads to a place there is a cursor. -/
theorem ofRow_cursors {row : Row} {p : Path} (h : p.Addresses row) (level : Int) :
    Meets (ofRow r level (some p) row) (fun b => 0 < b.cursors) fun _ => True := by
  obtain ⟨f, -, hgains⟩ := ofRow_gains r h
  obtain ⟨plain, b, -, hb, hgains⟩ := hgains level
  rw [hb, meets_ok, hgains.cursors (countP_placeholders _)]
  omega

/-- The layout of a row has no cursor, and with a path that can be followed exactly one, so that it
can be told how much of it is visible. Apart from the cursor, the glyphs are the same in both; only those
of the items around the cursor may span another size, and an empty row has a placeholder only if the
cursor is not in it. -/
theorem ofRow_one_cursor (r : Renderer) (level : Int) (root : Row) :
    ∃ plain, ofRow r level none root = .ok plain ∧ plain.cursors = 0 ∧
      ∀ p : Path, p.Addresses root → ∃ f b, Focus.ofPath root p = .ok f ∧
        ofRow r level (some p) root = .ok b ∧ b.cursors = 1 ∧
        (∀ viewport, ∃ seen, b.cursorVisibility viewport = .ok seen) ∧
        Gains f.spanning f.row.placeholders plain b := by
  obtain ⟨plain, hplain⟩ := exists_ofRow r level root
  have hnone := cursors_of_ofRow_none hplain
  refine ⟨plain, hplain, hnone, fun p hp => ?_⟩
  obtain ⟨f, hf, hgains⟩ := ofRow_gains r hp
  obtain ⟨other, b, hother, hb, hgains⟩ := hgains level
  obtain rfl : plain = other := Except.ok.inj (hplain.symm.trans hother)
  have hone : b.cursors = 1 := by rw [hgains.cursors (countP_placeholders _), hnone]
  refine ⟨f, b, hf, hb, hone, fun viewport => ?_, hgains⟩
  obtain ⟨g, hg, hcursor⟩ := List.countP_pos_iff.mp (hone ▸ Nat.one_pos)
  have hfound : (b.glyphs.find? (·.glyph.isCursor)).isSome = true :=
    List.find?_isSome.mpr ⟨g, hg, hcursor⟩
  obtain ⟨g', hfind⟩ := Option.isSome_iff_exists.mp hfound
  rw [cursorVisibility, hfind]
  exact ⟨_, rfl⟩

/-- A cursor in an empty denominator takes the place of the placeholder, and the line is the glyph
around it. -/
theorem ofRow_one_cursor_denominator :
    let root : Row := [.var "x", .fraction [.digit 1] []]
    Path.Addresses root [1, 1, 0] ∧ ∃ plain b, ofRow Renderer.ascii 0 none root = .ok plain ∧
      ofRow Renderer.ascii 0 (some [1, 1, 0]) root = .ok b ∧ b.cursors = 1 ∧
      Gains {.fraction 0} {.placeholder} plain b := by
  intro root
  have hpath : Path.Addresses root [1, 1, 0] :=
    @Path.Addresses.inside root [] (.fraction [.digit 1] []) 1 1 [0] rfl rfl
      (@Path.Addresses.place [] 0 le_rfl)
  obtain ⟨plain, hplain, -, hall⟩ := ofRow_one_cursor Renderer.ascii 0 root
  obtain ⟨f, b, hf, hb, hone, -, hgains⟩ := hall [1, 1, 0] hpath
  obtain rfl : f = ⟨[⟨root, 1, .fraction [.digit 1] [], 1⟩], [], 0⟩ := Except.ok.inj hf.symm
  exact ⟨hpath, plain, b, hplain, hb, hone, hgains⟩

end Block
end Mathpad
