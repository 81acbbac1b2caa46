import Mathpad.Proofs.Grouping
import Mathpad.Proofs.LiteralDrawing
import Mathpad.Proofs.Painting
import Mathpad.Proofs.Upgrading

/-!
# Expressions look like the rows they were read from

A row is drawn item by item, with each exponent put to the block on its left, and the expression it
is read as is drawn operation by operation, with an exponent put to all of its base. In an explicit
row both have the same glyphs in the same places (`Block.upgraded_alike`). The proof is by induction
on the derivation of the expression, where `DrawnAs` says that the blocks of the items together look
like the block of the expression (`Composed`), and keeps that an exponent would be put to the same
place either way (`Based`).

The glyphs are the same but come in another order. On the canvas this shows only where glyphs lie
over each other, which they do not as long as the name of every variable fits into its cell.
-/
set_option autoImplicit false

namespace Mathpad

namespace Block

variable {level : Int}

/-! ## Rows -/

/-- Both are laid out, and look alike. -/
def LookAlike (x y : Outcome Block) : Prop :=
  ∃ a b, x = .ok a ∧ y = .ok b ∧ a.Ordinary ∧ a.Alike b

/-- A row looks like an expression. -/
def LooksLike (level : Int) (row : Row) (e : Expr) : Prop :=
  LookAlike (ofRow Renderer.ascii level none row) (ofExpr Renderer.ascii level e)

/-- What a row and an expression are drawn as looks alike, if the row is composed to it. -/
theorem looksLike_of_composed {row : Row} {e : Expr} {bs : List Block} {b : Block}
    (hrow : row.mapM (ofItem Renderer.ascii level none) = .ok bs)
    (he : ofExpr Renderer.ascii level e = .ok b) (h : Composed bs b) : LooksLike level row e := by
  refine ⟨Block.row bs, b, ?_, he, h.row.symm.ordinary h.ordinary, h.row⟩
  have hcursor : withCursor Renderer.ascii level .nowhere bs = .ok bs := rfl
  rw [ofRow, Path.target, ok_bind, ofItems_nowhere, hrow, ok_bind, ofItemBlocks, hcursor, ok_bind]
  cases bs with
  | nil => exact absurd rfl h.ne_nil
  | cons => rfl

/-! ## Items with rows inside -/

/-- An item looks like an expression. -/
def ItemLooksLike (level : Int) (item : Item) (e : Expr) : Prop :=
  LookAlike (ofItem Renderer.ascii level none item) (ofExpr Renderer.ascii level e)

/-- A root looks like the root of the expression inside. -/
theorem looksLike_sqrt {inner : Row} {e : Expr} (h : LooksLike level inner e) :
    ItemLooksLike level (.sqrt inner) (.sqrt e) := by
  obtain ⟨a, b, ha, hb, hordinary, halike⟩ := h
  refine ⟨_, _, ?_, ?_, ?_, halike.root level⟩
  · rw [ofItem_sqrt, Path.intoSlot, ok_bind, ha]
    rfl
  · rw [ofExpr, hb]
    rfl
  · exact ⟨solid_kept.root level hordinary.toSolid, rfl⟩

/-- Parentheses look like those around the expression inside. -/
theorem looksLike_parentheses {inner : Row} {e : Expr} (h : LooksLike level inner e) :
    ItemLooksLike level (.parentheses inner) (.parentheses e) := by
  obtain ⟨a, b, ha, hb, hordinary, halike⟩ := h
  refine ⟨_, _, ?_, ?_, ?_, halike.parenthesised level⟩
  · rw [ofItem_parentheses, Path.intoSlot, ok_bind, ha]
    rfl
  · rw [ofExpr, hb]
    rfl
  · exact ⟨solid_kept.parenthesised level hordinary.toSolid, row_special _⟩

/-- A fraction looks like the quotient of the expressions in its parts. -/
theorem looksLike_fraction {top bottom : Row} {e f : Expr} (h : LooksLike level top e)
    (h' : LooksLike level bottom f) :
    ItemLooksLike level (.fraction top bottom) (.binary .divide e f) := by
  obtain ⟨a, b, ha, hb, hordinary, halike⟩ := h
  obtain ⟨c, d, hc, hd, hordinary', halike'⟩ := h'
  refine ⟨_, _, ?_, ?_, ?_, halike.fraction level halike'⟩
  · rw [ofItem_fraction, Path.intoFraction, ok_bind]
    dsimp only
    rw [ha, ok_bind, hc]
    rfl
  · rw [ofExpr, hb, ok_bind, hd]
    rfl
  · exact ⟨solid_kept.fraction level hordinary.toSolid hordinary'.toSolid, rfl⟩

/-- The arguments of a call, each of which looks like its expression. -/
theorem looksLike_args {args : List Row} {es : List Expr} (len : args.length = es.length)
    (h : ∀ p ∈ args.zip es, LooksLike level p.1 p.2) (slot : Nat) :
    ∃ as bs, ofArgs Renderer.ascii level none slot args = .ok as ∧
      ofExprs Renderer.ascii level es = .ok bs ∧ (∀ a ∈ as, a.Solid) ∧
      List.Forall₂ Alike as bs := by
  induction args generalizing es slot with
  | nil =>
    obtain rfl := List.length_eq_zero_iff.mp len.symm
    exact ⟨[], [], rfl, rfl, by simp, .nil⟩
  | cons arg args ih =>
    cases es with
    | nil => cases len
    | cons e es =>
      rw [List.zip_cons_cons] at h
      obtain ⟨⟨a, b, ha, hb, hordinary, halike⟩, hrest⟩ := List.forall_mem_cons.mp h
      obtain ⟨as, bs, has, hbs, hsolid, hall⟩ := ih (Nat.succ.inj len) hrest (slot + 1)
      refine ⟨a :: as, b :: bs, ?_, ?_, List.forall_mem_cons.mpr ⟨hordinary.toSolid, hsolid⟩,
        .cons halike hall⟩
      · rw [ofArgs_cons, Path.intoSlot, ok_bind, ha, ok_bind, has]
        rfl
      · rw [ofExprs, hb, ok_bind, hbs]
        rfl

/-- A call looks like the call of the expressions in its arguments. -/
theorem looksLike_call (f : NamedFunction) {args : List Row} {es : List Expr}
    (len : args.length = es.length) (h : ∀ p ∈ args.zip es, LooksLike level p.1 p.2) :
    ItemLooksLike level (.call f args) (.call f es) := by
  obtain ⟨as, bs, has, hbs, hsolid, hall⟩ := looksLike_args len h 0
  refine ⟨_, _, ?_, ?_, ⟨?_, row_special _⟩, call_alike level f hall⟩
  · rw [ofItem, has]
    rfl
  · rw [ofExpr, hbs]
    rfl
  · exact solid_kept.call level f hsolid fun _ => call_nil_solid level f

/-! ## Derivations -/

/-- The items of a row are drawn, and so is the expression, and together they look like it. What is
raised to a power is on the baseline of its last item. -/
def DrawnAs (level : Int) (l : Level) (row : Row) (e : Expr) : Prop :=
  ∃ bs b, row.mapM (ofItem Renderer.ascii level none) = .ok bs ∧
    ofExpr Renderer.ascii level e = .ok b ∧ Composed bs b ∧ (l = .unit ∨ l = .raised → Based bs)

/-- A row that is drawn as an expression looks like it. -/
theorem DrawnAs.looksLike {l : Level} {row : Row} {e : Expr} (h : DrawnAs level l row e) :
    LooksLike level row e := by
  obtain ⟨bs, b, hbs, hb, hcomposed, -⟩ := h
  exact looksLike_of_composed hbs hb hcomposed

/-- At a weaker level less has to be known. -/
theorem DrawnAs.mono {l l' : Level} {row : Row} {e : Expr} (h : DrawnAs level l row e)
    (hl : l' = .unit ∨ l' = .raised → l = .unit ∨ l = .raised) : DrawnAs level l' row e := by
  obtain ⟨bs, b, hbs, hb, hcomposed, hbased⟩ := h
  exact ⟨bs, b, hbs, hb, hcomposed, fun h => hbased (hl h)⟩

/-- A single item that looks like an expression. -/
theorem ItemLooksLike.drawnAs {l : Level} {item : Item} {e : Expr} (h : ItemLooksLike level item e) :
    DrawnAs level l [item] e := by
  obtain ⟨a, b, ha, hb, hordinary, halike⟩ := h
  refine ⟨[a], b, ?_, hb, (Composed.single hordinary).of_alike halike, fun _ => Based.single a⟩
  rw [List.mapM_cons, ha]
  rfl

/-- A literal that has its digits as one writes them is drawn as the number that it is. -/
theorem drawnAs_literal {n : Numeral} (h : n.Canonical) :
    DrawnAs level .unit n.row (.number n.number) := by
  obtain ⟨ts, hrow, hmarks, hnumber⟩ := ofNumber_canonical Renderer.ascii level h
  have hordinary : ∀ b ∈ ts.map (fun t => ofGlyph Renderer.ascii level (.ofToken t)),
      b.Ordinary ∧ b.baseline = 0 := by
    refine List.forall_mem_map.mpr fun t ht => ⟨⟨solid_kept.mark level (hmarks t ht), rfl⟩, ?_⟩
    show (Renderer.ascii.size (Glyph.ofToken t) level).height / 2 = 0
    rw [(hmarks t ht).size level]
    rfl
  have hne : ts.map (fun t => ofGlyph Renderer.ascii level (.ofToken t)) ≠ [] := by
    intro hnil
    exact n.row_ne_nil (by rw [hrow, List.map_eq_nil_iff.mp hnil]; rfl)
  obtain ⟨hcomposed, hbased⟩ := Composed.level hne (fun b hb => (hordinary b hb).1)
    fun b hb => (hordinary b hb).2
  refine ⟨_, _, hrow ▸ mapM_ofItem_tokens ts, hnumber, hcomposed.of_alike hcomposed.row.symm,
    fun _ => hbased⟩

/-- A power behind what it raises is drawn as the power. -/
theorem DrawnAs.power {row exponent : Row} {e x : Expr} (h : DrawnAs level .raised row e)
    (hx : LooksLike (level + 1) exponent x) :
    DrawnAs level .raised (row ++ [.power exponent]) (.power e x) := by
  obtain ⟨bs, b, hbs, hb, hcomposed, hbased⟩ := h
  obtain ⟨a, c, ha, hc, hordinary, halike⟩ := hx
  obtain ⟨hraised, hbased⟩ := hcomposed.raised (hbased (Or.inr rfl)) hordinary.toSolid
  have hlook := (Alike.refl b).raised halike hcomposed.ordinary.toSolid hordinary.toSolid
  refine ⟨bs ++ [superscript a], _, ?_, ?_, hraised.of_alike hlook, fun _ => hbased⟩
  · have hitem : ofItem Renderer.ascii level none (.power exponent) = .ok (superscript a) := by
      rw [ofItem_power, Path.intoSlot, ok_bind, ha]
      rfl
    rw [List.mapM_append, hbs, ok_bind, List.mapM_cons, hitem]
    rfl
  · rw [ofExpr, hb, ok_bind, hc]
    rfl

/-- What stands on both sides of an operator is drawn as the operation. -/
theorem DrawnAs.operation {l l' l'' : Level} {op : BinaryOp} {row next : Row} {e f : Expr}
    (h : DrawnAs level l row e) (hn : DrawnAs level l' next f) (hop : op ≠ .divide)
    (hl : ¬ (l'' = .unit ∨ l'' = .raised)) :
    DrawnAs level l'' (row ++ .token op.token :: next) (.binary op e f) := by
  obtain ⟨bs, b, hbs, hb, hcomposed, -⟩ := h
  obtain ⟨cs, c, hcs, hc, hcomposed', -⟩ := hn
  refine ⟨bs ++ ofGlyph Renderer.ascii level (operatorGlyph op) :: cs, _, ?_, ?_,
    hcomposed.joined hcomposed', fun h => absurd h hl⟩
  · have hitem : ofItem Renderer.ascii level none (.token op.token) =
        .ok (ofGlyph Renderer.ascii level (operatorGlyph op)) := by
      cases op <;> rfl
    rw [List.mapM_append, hbs, ok_bind, List.mapM_cons, hitem, ok_bind, hcs]
    rfl
  · rw [ofExpr_binary level hop, hb, ok_bind, hc]
    rfl

/-- Whatever an explicit row is an expression of, it looks like that. -/
theorem drawnAs_of_derives {l : Level} {row : Row} {e : Expr} (h : Derives l row e)
    (hrow : row.Explicit) (hinside : row.Everywhere Item.ExplicitInside) (level : Int) :
    DrawnAs level l row e := by
  have hinner : ∀ {item : Item}, item.Everywhere Item.ExplicitInside → ∀ inner ∈ item.slots,
      inner.Explicit ∧ inner.Everywhere Item.ExplicitInside := fun hitem inner hslot =>
    ⟨(Item.everywhere_iff.mp hitem).1 inner hslot, (Item.everywhere_iff.mp hitem).2 inner hslot⟩
  have hsplit : ∀ {row next : Row}, Row.Everywhere Item.ExplicitInside (row ++ next) →
      row.Everywhere Item.ExplicitInside ∧ next.Everywhere Item.ExplicitInside :=
    fun h => List.forall_mem_append.mp h
  -- signs, juxtaposed factors and quotients have no place in an explicit row
  induction h generalizing level with
  | literal n => exact drawnAs_literal hrow.canonical
  | «variable» name =>
    refine ItemLooksLike.drawnAs ⟨_, _, rfl, rfl, ⟨?_, rfl⟩, .refl _⟩
    exact ofGlyph_solid level zero_le_one zero_le_one
  | sqrt _ ih =>
    obtain ⟨he, hi⟩ := hinner (Row.everywhere_cons.mp hinside).1 _ (List.Mem.head _)
    exact (looksLike_sqrt (ih he hi level).looksLike).drawnAs
  | parentheses _ ih =>
    obtain ⟨he, hi⟩ := hinner (Row.everywhere_cons.mp hinside).1 _ (List.Mem.head _)
    exact (looksLike_parentheses (ih he hi level).looksLike).drawnAs
  | fraction _ _ iha ihb =>
    have hparts := hinner (Row.everywhere_cons.mp hinside).1
    obtain ⟨he, hi⟩ := hparts _ (List.Mem.head _)
    obtain ⟨he', hi'⟩ := hparts _ (List.Mem.tail _ (List.Mem.head _))
    exact (looksLike_fraction (iha he hi level).looksLike (ihb he' hi' level).looksLike).drawnAs
  | call f len _ ih =>
    refine (looksLike_call f len fun p hp => ?_).drawnAs
    obtain ⟨he, hi⟩ := hinner (Row.everywhere_cons.mp hinside).1 _ (List.of_mem_zip hp).1
    exact (ih p hp he hi level).looksLike
  -- a base is a unit or a power, and both are on the baseline of their last item
  | bare _ ih => exact (ih hrow hinside level).mono fun _ => Or.inl rfl
  | power _ _ ih ihx =>
    obtain ⟨hbase, hexponent⟩ := hsplit hinside
    obtain ⟨he, hi⟩ := hinner (Row.everywhere_cons.mp hexponent).1 _ (List.Mem.head _)
    exact (ih (hrow.before rfl) hbase level).power (ihx he hi (level + 1)).looksLike
  | signed k _ ih =>
    obtain rfl := hrow.no_sign
    exact (ih hrow hinside level).mono fun h => by simp at h
  | alone _ ih | single _ ih | lone _ ih =>
    exact (ih hrow hinside level).mono fun h => by simp at h
  | juxtaposed h _ starts ends => exact (hrow.not_juxtaposed h starts ends).elim
  | @multiplied op _ _ _ _ additive _ _ ih ihn =>
    obtain rfl := hrow.multiply additive
    obtain ⟨hfirst, hrest⟩ := hsplit hinside
    have hnext := (Row.everywhere_cons.mp hrest).2
    exact (ih (hrow.before rfl) hfirst level).operation (ihn (hrow.behind rfl) hnext level) (by simp)
      (by simp)
  | @added op _ _ _ _ additive _ _ ih ihn =>
    obtain ⟨hfirst, hrest⟩ := hsplit hinside
    have hnext := (Row.everywhere_cons.mp hrest).2
    have hdigit : (Item.token op.token).isDigit = false := by cases op <;> rfl
    have hoperand : (Item.token op.token).isOperand = false := by cases op <;> rfl
    refine (ih (hrow.before hdigit) hfirst level).operation (ihn (hrow.behind hoperand) hnext level) ?_
      (by simp)
    rintro rfl
    cases additive

/-! ## Upgrading -/

/-- Alike blocks without overlaps have the same drawing. -/
theorem Alike.lines {a b : Block} (h : a.Alike b) (ha : a.Tidy) :
    ∃ lines, a.lines none = .ok lines ∧ b.lines none = .ok lines := by
  have hb := ha.of_perm (h.solid ha.toSolid) h.glyphs.symm
  obtain ⟨lines, hlines, hdrawn⟩ := ha.draw.exists_ok
  obtain ⟨lines', hlines', hdrawn'⟩ := hb.draw.exists_ok
  -- the same glyphs put the same characters into the same cells
  have hmarks : ∀ m, m ∈ a.marks none ↔ m ∈ b.marks none := fun m => by
    rw [mem_marks, mem_marks]
    exact exists_congr fun g => and_congr_left fun _ => h.glyphs.mem_iff
  rw [← h.area] at hdrawn'
  have hsame := hdrawn.unique hdrawn' hmarks
  have hequal : lines = lines' :=
    List.map_injective_iff.mpr (fun _ _ h => String.toList_injective h) hsame
  exact ⟨lines, hlines, hequal ▸ hlines'⟩

/-- An expression that was read from an explicit row looks like the row. -/
theorem upgraded_alike {row : Row} {e : Expr} (h : Expr.ofRow row = .ok e) (hrow : row.Explicit)
    (hinside : row.Everywhere Item.ExplicitInside) (level : Int) :
    ∃ a b, ofRow Renderer.ascii level none row = .ok a ∧
      ofExpr Renderer.ascii level e = .ok b ∧ a.area = b.area ∧ a.baseline = b.baseline ∧
      a.glyphs.Perm b.glyphs ∧ (row.Everywhere Item.OneCell →
        ∃ lines, a.lines none = .ok lines ∧ b.lines none = .ok lines) := by
  have hderives : Derives .sum row e := (understood row).of_ok h
  obtain ⟨a, b, ha, hb, -, halike⟩ := (drawnAs_of_derives hderives hrow hinside level).looksLike
  refine ⟨a, b, ha, hb, halike.area, halike.baseline, halike.glyphs, fun hcells => ?_⟩
  have hadmits : row.Everywhere (Admits Tidy) := hcells.imp fun _ => admits_tidy
  exact halike.lines ((tidy_kept.ofRow hadmits level Path.addressesIf_none).of_ok ha)

/-- The row of `x` with the exponent `2`, plus `10`. -/
theorem upgraded_alike_square :
    let row : Row := [.var "x", .power [.digit 2], .token .add, .digit 1, .digit 0]
    let e : Expr := .binary .add (.power (.var "x") (.number (.ratio 2 1))) (.number (.ratio 10 1))
    (Expr.ofRow row = .ok e ∧ row.Explicit ∧ row.Everywhere Item.ExplicitInside ∧
        row.Everywhere Item.OneCell) ∧
      ∃ a b, ofRow Renderer.ascii 0 none row = .ok a ∧ ofExpr Renderer.ascii 0 e = .ok b ∧
        a.area = b.area ∧ a.baseline = b.baseline ∧ a.glyphs.Perm b.glyphs ∧
        ∃ lines, a.lines none = .ok lines ∧ b.lines none = .ok lines := by
  intro row e
  have additive : BinaryOp.add.isAdditive = true := rfl
  have two : Derives .unit [.digit 2] (.number (.ratio 2 1)) :=
    .literal ⟨[2], none, Or.inl (by simp)⟩ (by decide)
  have ten : Derives .unit [.digit 1, .digit 0] (.number (.ratio 10 1)) :=
    .literal ⟨[1, 0], none, Or.inl (by simp)⟩ (by decide)
  have square : Derives .raised ([.var "x"] ++ [.power [.digit 2]])
      (.power (.var "x") (.number (.ratio 2 1))) :=
    .power (.bare (.variable "x")) (.lone two.term_of_unit)
  have hread : Expr.ofRow row = .ok e :=
    (Derives.added additive (.lone (.single square.factor_of_raised)) ten.term_of_unit).ofRow_eq
  have hrow : row.Explicit := by decide
  have token := Item.explicitInside_token
  have hinside : row.Everywhere Item.ExplicitInside := by
    have hpower : (Item.power [.digit 2]).Everywhere Item.ExplicitInside :=
      Item.everywhere_iff.mpr ⟨by decide, by simp [Item.slots, Item.digit, token]⟩
    simpa [row, Item.var, Item.digit, token] using hpower
  have hcells : row.Everywhere Item.OneCell := by
    have hname : "x".length = 1 := rfl
    simp [row, Item.everywhere_iff, Item.var, Item.digit, Item.slots, Item.OneCell, hname]
  obtain ⟨a, b, ha, hb, harea, hbaseline, hglyphs, hlines⟩ := upgraded_alike hread hrow hinside 0
  exact ⟨⟨hread, hrow, hinside, hcells⟩, a, b, ha, hb, harea, hbaseline, hglyphs, hlines hcells⟩

/-- A name of two characters does not fit into its cell, and which of its neighbours is drawn over
it depends on the order of the glyphs. -/
theorem upgraded_unlike_name :
    let row : Row := [.var "ab", .token .add, .fraction [.digit 1] [.digit 2], .token .multiply,
      .var "c"]
    let e : Expr := .binary .add (.var "ab") (.binary .multiply
      (.binary .divide (.number (.ratio 1 1)) (.number (.ratio 2 1))) (.var "c"))
    Expr.ofRow row = .ok e ∧ row.Explicit ∧ row.Everywhere Item.ExplicitInside ∧
      (ofRow Renderer.ascii 0 none row).bind (fun b => b.lines none) =
        .ok ["  1  ", "ab- *c", "  2  "] ∧
      (ofExpr Renderer.ascii 0 e).bind (fun b => b.lines none) =
        .ok ["  1  ", "ab-*c ", "  2  "] := by
  intro row e
  have additive : BinaryOp.add.isAdditive = true := rfl
  have multiplicative : BinaryOp.multiply.isAdditive = false := rfl
  have one : Derives .unit [.digit 1] (.number (.ratio 1 1)) :=
    .literal ⟨[1], none, Or.inl (by simp)⟩ (by decide)
  have two : Derives .unit [.digit 2] (.number (.ratio 2 1)) :=
    .literal ⟨[2], none, Or.inl (by simp)⟩ (by decide)
  have half := Derives.fraction (.lone one.term_of_unit) (.lone two.term_of_unit)
  have product := Derives.multiplied multiplicative half.term_of_unit
    (.factor_of_raised (.bare (.variable "c")))
  have hread : Expr.ofRow row = .ok e :=
    (Derives.added additive (.lone (Derives.variable "ab").term_of_unit) product).ofRow_eq
  have token := Item.explicitInside_token
  have hfraction : (Item.fraction [.digit 1] [.digit 2]).Everywhere Item.ExplicitInside :=
    Item.everywhere_iff.mpr ⟨by decide, by simp [Item.slots, Item.digit, token]⟩
  exact ⟨hread, by decide, by simp [row, Item.var, token, hfraction], rfl, rfl⟩

end Block

end Mathpad
