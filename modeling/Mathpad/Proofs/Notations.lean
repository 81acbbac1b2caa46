import Mathpad.Drawing.OfRow
import Mathpad.Proofs.Alike
import Mathpad.Proofs.Cells
import Mathpad.Proofs.Figures
import Mathpad.Proofs.Paths

/-!
# What every notation keeps

A drawing is put together from single glyphs by a handful of notations. A property of blocks
that single glyphs have and that each notation keeps (`Block.Kept`) is therefore true of every
row, also with a cursor at any place in it (`Kept.ofRow`), and of every expression
(`Kept.ofExpr`); and in both cases there is a drawing at all.

What depends on the items is left to the property: which tokens it admits, and whether it
admits calls without arguments. A property can be strengthened by one of single glyphs
(`Kept.and_glyphs`): so every glyph of a drawing has the size that it is drawn in
(`standing_kept`).
-/
set_option autoImplicit false

namespace Mathpad

/-! ## Paths into items -/

namespace Path

/-- The path goes on inside the item, in one of its rows. -/
inductive Enters (item : Item) : Path → Prop
  | slot {inner : Row} {slot : Nat} {rest : Path} (hslot : item.slots[slot]? = some inner)
      (h : Addresses inner rest) : Enters item ((slot : Int) :: rest)

/-- Where there is a path, it goes on inside the item. -/
def EntersIf (item : Item) (path : Option Path) : Prop := ∀ p ∈ path, Enters item p

/-- Where there is a path, it can be followed in the row. -/
def AddressesIf (row : Row) (path : Option Path) : Prop := ∀ p ∈ path, p.Addresses row

variable {row inner : Row} {item : Item} {path : Option Path}

theorem addressesIf_none : AddressesIf row none := fun _ h => nomatch h

theorem entersIf_none : EntersIf item none := fun _ h => nomatch h

/-- A path that enters an item names one of its rows and goes on in it. -/
theorem EntersIf.cases (h : EntersIf item path) :
    path = none ∨ ∃ (inner : Row) (slot : Nat) (rest : Path), item.slots[slot]? = some inner ∧
      rest.Addresses inner ∧ path = some ((slot : Int) :: rest) := by
  cases path with
  | none => exact Or.inl rfl
  | some p =>
    cases h p rfl with
    | slot hslot hrest => exact Or.inr ⟨_, _, _, hslot, hrest, rfl⟩

/-- Going into a row of the item leads a path on that is meant for it, and drops any other. -/
theorem EntersIf.intoSlot (h : EntersIf item path) {k : Nat} (hk : item.slots[k]? = some inner) :
    Meets (intoSlot path k) (AddressesIf inner) fun _ => False := by
  obtain rfl | ⟨other, slot, rest, hslot, hrest, rfl⟩ := h.cases
  · exact addressesIf_none
  · rw [Path.intoSlot, split, ok_bind]
    dsimp only
    by_cases hsame : (slot : Int) = k
    · rw [if_pos hsame]
      obtain rfl := Int.ofNat_inj.mp hsame
      rintro _ ⟨⟩
      cases hslot.symm.trans hk
      exact hrest
    · rw [if_neg hsame]
      exact addressesIf_none

/-- A path into a fraction goes on in the numerator or in the denominator. -/
theorem EntersIf.intoFraction {top bottom : Row} (h : EntersIf (.fraction top bottom) path) :
    Meets (intoFraction path) (fun q => AddressesIf top q.1 ∧ AddressesIf bottom q.2)
      fun _ => False := by
  obtain rfl | ⟨other, slot, rest, hslot, hrest, rfl⟩ := h.cases
  · exact ⟨addressesIf_none, addressesIf_none⟩
  · rw [Path.intoFraction, split, ok_bind]
    dsimp only
    rcases slot with _ | _ | slot
    · cases hslot
      refine ⟨?_, addressesIf_none⟩
      rintro _ ⟨⟩
      exact hrest
    · cases hslot
      refine ⟨addressesIf_none, ?_⟩
      rintro _ ⟨⟩
      exact hrest
    · cases hslot

/-- A path in a row ends there, or goes on inside one of the items. -/
inductive Aims (row : Row) : Target → Prop
  | nowhere : Aims row .nowhere
  | cursor {place : Nat} (h : place ≤ row.length) : Aims row (.cursor place)
  | into {index : Nat} {item : Item} {rest : Path} (hitem : row[index]? = some item)
      (h : Enters item rest) : Aims row (.into index rest)

/-- A path that goes on in an item of the row has that item for its target. -/
theorem target_inside {index length : Nat} (h : index < length) (slot : Int) (rest : Path) :
    target (some ((index : Int) :: slot :: rest)) length = .ok (.into index (slot :: rest)) := by
  rw [Path.target, split, ok_bind]
  · dsimp only
    rw [if_neg (by omega), Place.index?_natCast h]
    rfl
  · simp

/-- A path that can be followed has a target, which is in the row. -/
theorem AddressesIf.target (h : AddressesIf row path) :
    Meets (target path row.length) (Aims row) fun _ => False := by
  cases path with
  | none => exact .nowhere
  | some p =>
    cases h p rfl with
    | place hplace => exact .cursor hplace
    | @inside _ inner item index slot rest hitem hslot hrest =>
      obtain ⟨hindex, -⟩ := List.getElem?_eq_some_iff.mp hitem
      rw [target_inside hindex]
      exact .into hitem (.slot hslot hrest)

end Path

open Mathpad.Path (AddressesIf EntersIf Aims)

/-! ## Notations -/

/-- A glyph that consists of one given character. -/
def Glyph.IsMark : Glyph → Prop
  | digit value => 0 ≤ value ∧ value ≤ 9
  | point | comma | add | subtract | multiply | divide | placeholder => True
  | functionName _ | var _ | fraction _ | leftParenthesis _ | rightParenthesis _ | sqrt _
  | cursor _ => False

/-- A glyph that is as high as the given height. -/
inductive Glyph.IsTall (height : Int) : Glyph → Prop
  | cursor : IsTall height (.cursor height)
  | leftParenthesis : IsTall height (.leftParenthesis height)
  | rightParenthesis : IsTall height (.rightParenthesis height)

/-- A mark is drawn as one character. -/
theorem Glyph.IsMark.size {glyph : Glyph} (h : glyph.IsMark) (level : Int) :
    Renderer.ascii.size glyph level = ⟨1, 1⟩ := by
  cases glyph with
  | digit | point | comma | add | subtract | multiply | divide | placeholder => rfl
  | functionName | var | fraction | leftParenthesis | rightParenthesis | sqrt | cursor =>
    exact h.elim

theorem Glyph.IsTall.size {glyph : Glyph} {height : Int} (h : glyph.IsTall height)
    (level : Int) : Renderer.ascii.size glyph level = ⟨1, height⟩ := by
  cases h <;> rfl

/-- A mark can be drawn at any place. -/
theorem Glyph.IsMark.isProper {glyph : Glyph} (h : glyph.IsMark) : glyph.IsProper := by
  cases glyph with
  | digit | point | comma | add | subtract | multiply | divide | placeholder => exact h
  | functionName | var | fraction | leftParenthesis | rightParenthesis | sqrt | cursor =>
    exact h.elim

/-- A tall glyph can be drawn if it has any height at all. -/
theorem Glyph.IsTall.isProper {glyph : Glyph} {height : Int} (h : glyph.IsTall height)
    (hheight : 1 ≤ height) : glyph.IsProper := by
  cases h <;> exact hheight

namespace Block

/-- A property of blocks that single glyphs have, and that is kept by everything that blocks are
put together with. -/
structure Kept (P : Block → Prop) : Prop where
  solid : ∀ {b : Block}, P b → b.Solid
  mark : ∀ {glyph : Glyph} (level : Int), glyph.IsMark → P (ofGlyph Renderer.ascii level glyph)
  name : ∀ (level : Int) (f : NamedFunction), P (ofGlyph Renderer.ascii level (.functionName f))
  tall : ∀ {b : Block} {glyph : Glyph} (level : Int), P b → glyph.IsTall b.area.height →
    P { ofGlyph Renderer.ascii level glyph with baseline := b.baseline }
  superscript : ∀ {b : Block}, P b → P (superscript b)
  start : ∀ b : Block, P b → P (empty.beside b)
  beside : ∀ a b : Block, P a → P b → P (a.beside b)
  root : ∀ {b : Block} (level : Int), P b → P (root Renderer.ascii level b)
  fraction : ∀ {a b : Block} (level : Int), P a → P b → P (fraction Renderer.ascii level a b)

variable {P : Block → Prop} {level : Int}

/-- A row of blocks has the property if they all have, as it is put together from two at a time. -/
theorem Kept.row (hP : Kept P) {bs : List Block} (hne : bs ≠ []) (h : ∀ b ∈ bs, P b) :
    P (row bs) :=
  row_forall hP.beside hP.start hne h

/-- Every notation keeps blocks solid. -/
theorem solid_kept : Kept Solid where
  solid h := h
  mark level h := by
    refine ofGlyph_solid level ?_ ?_ <;> rw [h.size level] <;> exact zero_le_one
  name level f := ofGlyph_solid level (Int.natCast_nonneg _) zero_le_one
  tall level h hglyph := by
    refine Solid.on (ofGlyph_solid level ?_ ?_) h.baseline <;> rw [hglyph.size level]
    · exact zero_le_one
    · exact h.height_nonneg
  superscript h := h.superscript
  start _ h := empty_snug.beside h
  beside _ _ ha hb := ha.toSnug.beside hb
  root level h := h.root level
  fraction level ha hb := ha.fraction level hb

/-- An exponent is a superscript beside its base. -/
theorem Kept.raised (hP : Kept P) {a b : Block} (ha : P a) (hb : P b) : P (raised a b) := by
  rw [raised_eq (hP.solid ha) (hP.solid hb)]
  exact hP.beside _ _ ha (hP.superscript hb)

/-- Two blocks with an operator between them have the property. -/
theorem Kept.joined (hP : Kept P) {a b : Block} (level : Int) (op : BinaryOp) (ha : P a)
    (hb : P b) : P (joined Renderer.ascii level op a b) := by
  have hop : P (ofGlyph Renderer.ascii level (operatorGlyph op)) :=
    hP.mark level (by cases op <;> exact trivial)
  rw [joined_eq (hP.solid ha) (hP.solid hop)]
  exact hP.beside _ _ (hP.beside _ _ ha hop) hb

/-- Brackets around a block have the property: they are as high as the block. -/
theorem Kept.brackets (hP : Kept P) {b : Block} (level : Int) (h : P b) :
    P (brackets Renderer.ascii level b).1 ∧ P (brackets Renderer.ascii level b).2 :=
  ⟨hP.tall level h .leftParenthesis, hP.tall level h .rightParenthesis⟩

theorem Kept.parenthesised (hP : Kept P) {b : Block} (level : Int) (h : P b) :
    P (parenthesised Renderer.ascii level b) := by
  obtain ⟨hleft, hright⟩ := hP.brackets level h
  exact hP.row (by simp) (by simpa using ⟨hleft, h, hright⟩)

/-- What stands in a list with separators is a separator or was in the list. -/
theorem mem_intersperse {α : Type} {x sep : α} {xs : List α} (h : x ∈ xs.intersperse sep) :
    x = sep ∨ x ∈ xs := by
  induction xs using List.twoStepInduction with
  | nil => simp at h
  | singleton => exact Or.inr (by simpa using h)
  | cons_cons y z xs _ ih =>
    rw [List.intersperse_cons_cons] at h
    rcases List.mem_cons.mp h with rfl | h
    · exact Or.inr (by simp)
    rcases List.mem_cons.mp h with rfl | h
    · exact Or.inl rfl
    · exact (ih z h).imp_right (List.mem_cons_of_mem y)

/-- A call with arguments; one without any has nothing between its parentheses. -/
theorem Kept.call (hP : Kept P) (level : Int) (f : NamedFunction) {args : List Block}
    (h : ∀ b ∈ args, P b) (hempty : args = [] → P (call Renderer.ascii level f [])) :
    P (call Renderer.ascii level f args) := by
  by_cases hne : args = []
  · rw [hne]
    exact hempty hne
  have hsome : args.intersperse (ofGlyph Renderer.ascii level .comma) ≠ [] := by
    have hpos := List.length_pos_iff.mpr hne
    rw [← List.length_pos_iff, List.length_intersperse]
    omega
  have hjoined := hP.row hsome fun b hb => by
    rcases mem_intersperse hb with rfl | hb
    · exact hP.mark level trivial
    · exact h b hb
  obtain ⟨hleft, hright⟩ := hP.brackets level hjoined
  exact hP.row (by simp) (by simpa using ⟨hP.name level f, hleft, hjoined, hright⟩)

/-! ## Glyphs on their own -/

section Glyphwise

variable {a b : Block} {G : PlacedGlyph → Prop} (hmoved : ∀ g dx dy, G g → G (g.moved dx dy))

include hmoved

theorem forall_moved (h : ∀ g ∈ b.glyphs, G g) (dx dy : Int) :
    ∀ g ∈ (b.moved dx dy).glyphs, G g :=
  List.forall_mem_map.mpr fun g hg => hmoved g dx dy (h g hg)

/-- What holds of the glyphs of two blocks holds of them on one baseline. -/
theorem forall_alongBaseline (ha : ∀ g ∈ a.glyphs, G g) (hb : ∀ g ∈ b.glyphs, G g) :
    ∀ g ∈ (a.alongBaseline b).glyphs, G g := by
  unfold Block.alongBaseline
  split
  · exact List.forall_mem_append.mpr ⟨forall_moved hmoved ha _ _, hb⟩
  · by_cases hlow : a.baseline < b.baseline
    · rw [if_pos hlow]
      exact List.forall_mem_append.mpr ⟨forall_moved hmoved ha _ _, hb⟩
    · rw [if_neg hlow]
      exact List.forall_mem_append.mpr ⟨forall_moved hmoved hb _ _, ha⟩

/-- What holds of the glyphs of two blocks holds of them on one centre line. -/
theorem forall_alongCentre (ha : ∀ g ∈ a.glyphs, G g) (hb : ∀ g ∈ b.glyphs, G g)
    (leader : Leader) : ∀ g ∈ (a.alongCentre b leader).glyphs, G g := by
  unfold Block.alongCentre
  dsimp only
  split
  · exact List.forall_mem_append.mpr ⟨forall_moved hmoved ha _ _, hb⟩
  · exact List.forall_mem_append.mpr ⟨forall_moved hmoved hb _ _, ha⟩

end Glyphwise

/-- What is true of each glyph of its size wherever it stands is true of all glyphs of a block. -/
theorem Kept.and_glyphs {G : PlacedGlyph → Prop} (hP : Kept P)
    (hheight : ∀ b, P b → (∀ g ∈ b.glyphs, G g) → 1 ≤ b.area.height)
    (hmoved : ∀ g dx dy, G g → G (g.moved dx dy))
    (hG : ∀ (glyph : Glyph) (level : Int), glyph.IsProper →
      G ⟨glyph, Renderer.ascii.size glyph level, level, Point.origin⟩) :
    Kept fun b => P b ∧ ∀ g ∈ b.glyphs, G g where
  solid h := hP.solid h.1
  mark level h := ⟨hP.mark level h, List.forall_mem_singleton.mpr (hG _ level h.isProper)⟩
  name level f := ⟨hP.name level f, List.forall_mem_singleton.mpr (hG _ level trivial)⟩
  tall level h hglyph := ⟨hP.tall level h.1 hglyph,
    List.forall_mem_singleton.mpr (hG _ level (hglyph.isProper (hheight _ h.1 h.2)))⟩
  superscript h := ⟨hP.superscript h.1, h.2⟩
  start b h := ⟨hP.start b h.1, forall_alongBaseline hmoved (List.forall_mem_nil _)
    (forall_moved hmoved h.2 _ _)⟩
  beside a b ha hb := ⟨hP.beside a b ha.1 hb.1, forall_alongBaseline hmoved ha.2
    (forall_moved hmoved hb.2 _ _)⟩
  root {b} level h := by
    have hsolid := hP.solid h.1
    have hsign : ∀ g ∈ (ofGlyph Renderer.ascii level (.sqrt b.area)).glyphs, G g :=
      List.forall_mem_singleton.mpr (hG _ level ⟨hsolid.width_nonneg, hsolid.height_nonneg⟩)
    refine ⟨hP.root level h.1, ?_⟩
    exact List.forall_mem_append.mpr ⟨hsign, forall_moved hmoved h.2 _ _⟩
  fraction {a b} level ha hb := by
    have hline : ∀ g ∈ (ofGlyph Renderer.ascii level
        (.fraction (max a.area.width b.area.width))).glyphs, G g :=
      List.forall_mem_singleton.mpr (hG _ level trivial)
    refine ⟨hP.fraction level ha.1 hb.1, ?_⟩
    exact forall_alongCentre hmoved
      (forall_alongCentre hmoved ha.2 (forall_moved hmoved hline _ _) _)
      (forall_moved hmoved hb.2 _ _) _

/-- Every notation keeps blocks solid, of glyphs that have lines. -/
theorem standing_kept : Kept fun b => b.Solid ∧ ∀ g ∈ b.glyphs, g.Standing :=
  solid_kept.and_glyphs (fun _ h hglyphs => h.height_pos hglyphs)
    (fun _ _ _ h => ⟨h.height, h.size⟩) fun _ level h => ⟨h.height_pos level, rfl⟩

/-! ## Rows -/

/-- The cursor stands beside a block that is there, or in an empty row. -/
theorem besideCursor_meets (r : Renderer) (level : Int) {bs : List Block} {place : Nat}
    (hplace : place ≤ bs.length) :
    Meets (besideCursor r level bs place)
      (fun b => b ∈ bs ∨ bs = [] ∧ b = ofGlyph r level (.digit 0)) fun _ => False := by
  unfold Block.besideCursor
  by_cases hnil : bs = []
  · rw [if_pos (by simpa using hnil)]
    exact .inr ⟨hnil, rfl⟩
  rw [if_neg (by simpa using hnil)]
  have hpos := List.length_pos_iff.mpr hnil
  -- at an end of the row the only neighbour decides, else the higher one of the two
  have hget : ∀ {k : Nat}, k < bs.length → ∃ b, Place.get bs k = .ok b ∧ b ∈ bs := fun {k} hk =>
    ⟨bs[k], Place.get_natCast (List.getElem?_eq_getElem hk), List.getElem_mem hk⟩
  by_cases hfirst : (place : Int) = 0
  · rw [if_pos hfirst]
    obtain ⟨b, hb, hmem⟩ := hget hpos
    exact (congrArg (Meets · _ fun _ => False) hb).mpr (.inl hmem)
  rw [if_neg hfirst]
  by_cases hlast : (place : Int) = bs.length
  · rw [if_pos hlast]
    obtain ⟨n, hn⟩ : ∃ n, bs.length = n + 1 := ⟨bs.length - 1, by omega⟩
    have hmem : n < bs.length := by omega
    rw [Place.get_last (List.getElem?_eq_getElem hmem) hn]
    exact .inl (List.getElem_mem hmem)
  rw [if_neg hlast]
  have hbefore : ((place : Int) - 1) = ((place - 1 : Nat) : Int) := by omega
  obtain ⟨after, hafter, hmemAfter⟩ := hget (show place < bs.length by omega)
  obtain ⟨before, hbeforeGet, hmemBefore⟩ := hget (show place - 1 < bs.length by omega)
  rw [hafter, ok_bind, hbefore, hbeforeGet, ok_bind]
  refine .inl (show (if before.area.height < after.area.height then after else before) ∈ bs from ?_)
  split
  · exact hmemAfter
  · exact hmemBefore

/-- The cursor is as high as a block that is there. -/
theorem Kept.besideCursor (hP : Kept P) {bs : List Block} (h : ∀ b ∈ bs, P b) {place : Nat}
    (hplace : place ≤ bs.length) :
    Meets (besideCursor Renderer.ascii level bs place) P fun _ => False := by
  refine (besideCursor_meets Renderer.ascii level hplace).imp fun b hb => ?_
  rcases hb with hb | ⟨-, rfl⟩
  · exact h b hb
  · exact hP.mark level ⟨le_rfl, by decide⟩

/-- The blocks of a row, with a cursor among them or a placeholder for them, have the property. -/
theorem Kept.ofItemBlocks (hP : Kept P) {row : Row} {target : Path.Target} (ht : Aims row target)
    {bs : List Block} (hlength : bs.length = row.length) (h : ∀ b ∈ bs, P b) :
    Meets (ofItemBlocks Renderer.ascii level target bs) P fun _ => False := by
  -- in a row without blocks there is a placeholder
  have hsome : ∀ {cs : List Block}, (∀ b ∈ cs, P b) →
      Meets (Block.ofItemBlocks Renderer.ascii level .nowhere cs) P fun _ => False := by
    intro cs hcs
    cases cs with
    | nil =>
      have hmark : P (ofGlyph Renderer.ascii level .placeholder) := hP.mark level trivial
      exact hP.row (by simp) (by simpa using hmark)
    | cons c cs => exact hP.row (by simp) hcs
  unfold Block.ofItemBlocks
  cases ht with
  | nowhere => exact hsome h
  | into => exact hsome h
  | @cursor place hplace =>
    have hle : place ≤ bs.length := hlength ▸ hplace
    refine Meets.bind (P := fun cs => ∀ b ∈ cs, P b) ?_ fun cs hcs => hsome hcs
    refine (hP.besideCursor h hle).bind fun beside hbeside => ?_
    have hcursor := hP.tall level hbeside .cursor
    show ∀ b ∈ Place.insert bs place _, P b
    rw [Place.insert_natCast hle]
    intro b hb
    rcases List.eq_or_mem_of_mem_insertIdx hb with rfl | hb
    · exact hcursor
    · exact h b hb

/-- All paths into the item lead to a block with the property. -/
def ItemMeets (P : Block → Prop) (item : Item) : Prop :=
  ∀ (level : Int) (path : Option Path), EntersIf item path →
    Meets (ofItem Renderer.ascii level path item) P fun _ => False

/-- Each item gets the part of the path that is meant for it, so each is laid out with the property.
-/
theorem ofItems_meets {items : List Item} {target : Path.Target} {index : Nat}
    (ht : ∀ (k : Nat) (item : Item), items[k]? = some item →
      EntersIf item (target.inside (index + k)))
    (h : ∀ item ∈ items, ItemMeets P item) :
    Meets (ofItems Renderer.ascii level target index items)
      (fun bs => bs.length = items.length ∧ ∀ b ∈ bs, P b) fun _ => False := by
  induction items generalizing index with
  | nil => exact ⟨rfl, by simp⟩
  | cons item items ih =>
    obtain ⟨hitem, hitems⟩ := List.forall_mem_cons.mp h
    rw [ofItems]
    refine (hitem level _ (ht 0 item rfl)).bind fun b hb => ?_
    refine (ih (fun k u hu => ?_) hitems).bind fun bs hbs =>
      ⟨by simp [hbs.1], List.forall_mem_cons.mpr ⟨hb, hbs.2⟩⟩
    have hnext := ht (k + 1) u hu
    rwa [show index + 1 + k = index + (k + 1) by omega]

/-- Where a path goes on in an item of the row, the other items get none of it. -/
theorem Aims.entersIf {row : Row} {target : Path.Target} (h : Aims row target) (k : Nat)
    (item : Item) (hitem : row[k]? = some item) : EntersIf item (target.inside (0 + k)) := by
  rw [Nat.zero_add]
  cases h with
  | nowhere | cursor => exact Path.entersIf_none
  | @into index other rest hother hrest =>
    rw [Path.Target.inside]
    by_cases hsame : index = k
    · rw [if_pos hsame]
      rintro _ ⟨⟩
      cases (hsame ▸ hother).symm.trans hitem
      exact hrest
    · rw [if_neg hsame]
      exact Path.entersIf_none

/-- A row has the property in whatever way its items are laid out, if they have. -/
theorem Kept.ofRow_of_items (hP : Kept P) {row : Row} (h : ∀ item ∈ row, ItemMeets P item)
    (level : Int) {path : Option Path} (hpath : AddressesIf row path) :
    Meets (ofRow Renderer.ascii level path row) P fun _ => False := by
  rw [Block.ofRow]
  refine hpath.target.bind fun target ht => ?_
  exact (ofItems_meets (Aims.entersIf ht) h).bind fun bs hbs => hP.ofItemBlocks ht hbs.1 hbs.2

/-! ### The block of an item from those of its rows -/

section Slots

variable (r : Renderer) (path : Option Path)

/-- A root is its sign over what is laid out inside. -/
theorem ofItem_sqrt (inner : Row) :
    ofItem r level path (.sqrt inner) = do
      return Block.root r level (← ofRow r level (← Path.intoSlot path 0) inner) := by
  simp only [ofItem, ofRow, bind_assoc]

theorem ofItem_parentheses (inner : Row) :
    ofItem r level path (.parentheses inner) = do
      return parenthesised r level (← ofRow r level (← Path.intoSlot path 0) inner) := by
  simp only [ofItem, ofRow, bind_assoc]

/-- A power is a superscript of what is laid out inside, one level further up. -/
theorem ofItem_power (exponent : Row) :
    ofItem r level path (.power exponent) = do
      return superscript (← ofRow r (level + 1) (← Path.intoSlot path 0) exponent) := by
  simp only [ofItem, ofRow, bind_assoc]

/-- A fraction is its two parts, of which at most one is laid out with the cursor. -/
theorem ofItem_fraction (top bottom : Row) :
    ofItem r level path (.fraction top bottom) = do
      let parts ← Path.intoFraction path
      let numerator ← ofRow r level parts.1 top
      return fraction r level numerator (← ofRow r level parts.2 bottom) := by
  simp only [ofItem, ofRow, bind_assoc]

/-- The arguments of a call are laid out in turn, each with the part of the path that is meant for
it. -/
theorem ofArgs_cons (slot : Nat) (arg : Row) (args : List Row) :
    ofArgs r level path slot (arg :: args) = do
      let b ← ofRow r level (← Path.intoSlot path slot) arg
      return b :: (← ofArgs r level path (slot + 1) args) := by
  simp only [ofArgs, ofRow, bind_assoc]

-- without a cursor the items, and the arguments, are laid out one by one
/-- Without a cursor, the items of a row are laid out independently. -/
theorem ofItems_nowhere (level : Int) (index : Nat) (items : List Item) :
    ofItems r level .nowhere index items = items.mapM (ofItem r level none) := by
  induction items generalizing index with
  | nil => rfl
  | cons item items ih =>
    rw [ofItems, ih, List.mapM_cons]
    rfl

/-- Without a cursor, the arguments of a call are laid out independently. -/
theorem ofArgs_none (level : Int) (slot : Nat) (args : List Row) :
    ofArgs r level none slot args = args.mapM (ofRow r level none) := by
  induction args generalizing slot with
  | nil => rfl
  | cons arg args ih =>
    rw [ofArgs_cons, ih, List.mapM_cons]
    rfl

end Slots

/-- All arguments of a call have the property, of which at most one is laid out with the cursor. -/
theorem Kept.ofArgs (hP : Kept P) {f : NamedFunction} {all args : List Row} {slot : Nat}
    {path : Option Path} (hpath : EntersIf (.call f all) path) (hargs : args = all.drop slot)
    (h : ∀ row ∈ args, ∀ item ∈ row, ItemMeets P item) :
    Meets (ofArgs Renderer.ascii level path slot args)
      (fun bs => bs.length = args.length ∧ ∀ b ∈ bs, P b) fun _ => False := by
  induction args generalizing slot with
  | nil => exact ⟨rfl, by simp⟩
  | cons arg args ih =>
    obtain ⟨harg, hrest⟩ := List.forall_mem_cons.mp h
    have hslot : (Item.call f all).slots[slot]? = some arg := by
      show all[slot]? = some arg
      rw [← List.head?_drop, ← hargs]
      rfl
    have hnext : args = all.drop (slot + 1) := by
      rw [← List.tail_drop, ← hargs]
      rfl
    rw [ofArgs_cons]
    refine (hpath.intoSlot hslot).bind fun inside hinside => ?_
    refine (hP.ofRow_of_items harg level hinside).bind fun b hb => ?_
    exact (ih hnext hrest).bind fun bs hbs =>
      ⟨by simp [hbs.1], List.forall_mem_cons.mpr ⟨hb, hbs.2⟩⟩

/-- The property admits the item: as a token it is drawn with the property, and as a call it
has arguments, unless the property admits a call without any. -/
def Admits (P : Block → Prop) : Item → Prop
  | .token t => ∀ level, P (ofGlyph Renderer.ascii level (.ofToken t))
  | .call f args => args = [] → ∀ level, P (call Renderer.ascii level f [])
  | .sqrt _ | .parentheses _ | .power _ | .fraction _ _ => True

/-- An item has the property, whatever path leads into it, if all items in it are admitted. -/
theorem Kept.ofItem (hP : Kept P) {item : Item} (h : item.Everywhere (Admits P)) :
    ItemMeets P item := by
  -- every kind of item puts blocks of its rows together; only exponents are on another level
  induction h with
  | @intro item here _ ih =>
    intro level path hpath
    cases item with
    | token t => exact here level
    | sqrt inner =>
      rw [ofItem_sqrt]
      refine (hpath.intoSlot rfl).bind fun inside hinside => ?_
      exact (hP.ofRow_of_items (ih inner (by simp [Item.slots])) level hinside).bind fun b hb =>
        hP.root level hb
    | parentheses inner =>
      rw [ofItem_parentheses]
      refine (hpath.intoSlot rfl).bind fun inside hinside => ?_
      exact (hP.ofRow_of_items (ih inner (by simp [Item.slots])) level hinside).bind fun b hb =>
        hP.parenthesised level hb
    | power exponent =>
      rw [ofItem_power]
      refine (hpath.intoSlot rfl).bind fun inside hinside => ?_
      exact (hP.ofRow_of_items (ih exponent (by simp [Item.slots])) _ hinside).bind fun b hb =>
        hP.superscript hb
    | fraction top bottom =>
      rw [ofItem_fraction]
      refine hpath.intoFraction.bind fun parts hparts => ?_
      refine (hP.ofRow_of_items (ih top (by simp [Item.slots])) level hparts.1).bind fun a ha => ?_
      exact (hP.ofRow_of_items (ih bottom (by simp [Item.slots])) level hparts.2).bind fun b hb =>
        hP.fraction level ha hb
    | call f args =>
      rw [Block.ofItem]
      refine (hP.ofArgs hpath (List.drop_zero).symm ih).bind fun bs hbs => ?_
      refine hP.call level f hbs.2 fun hnil => here ?_ level
      rw [← List.length_eq_zero_iff, ← hbs.1, hnil, List.length_nil]

/-- Every row is drawn, with a cursor at any place in it or without one, and the drawing has the
property. -/
theorem Kept.ofRow (hP : Kept P) {row : Row} (h : row.Everywhere (Admits P)) (level : Int)
    {path : Option Path} (hpath : AddressesIf row path) :
    Meets (ofRow Renderer.ascii level path row) P fun _ => False :=
  hP.ofRow_of_items (fun item hi => hP.ofItem (h item hi)) level hpath

/-! ## Expressions -/

/-- Without its sign, a decimal that is no zero with a sign has none. -/
theorem negative_size {v : Decimal} (h : v.negative = true → v.digits ≠ 0) :
    (if v.isBelowZero then v.negate precision else v).negative = false := by
  by_cases hbelow : v.isBelowZero = true
  · obtain ⟨hnegative, hdigits⟩ := Bool.and_eq_true_iff.mp hbelow
    rw [if_pos hbelow, Decimal.negate, if_neg (by simpa using hdigits), Decimal.negative_round]
    simp [Decimal.flip, hnegative]
  · rw [if_neg hbelow]
    cases hnegative : v.negative with
    | false => rfl
    | true =>
      have hdigits := h hnegative
      simp [Decimal.isBelowZero, hnegative, hdigits] at hbelow

/-- A decimal without a sign consists of digits and at most one point. -/
theorem positional_numerals {v : Decimal} (h : v.negative = false) :
    v.positional ≠ [] ∧ ∀ c ∈ v.positional, c.isDigit = true ∨ c = '.' := by
  obtain ⟨whole, places, hsplit⟩ := v.exists_splitsAt
  have hdigits := hsplit.digits
  have hne := hsplit.whole_ne_nil
  unfold Decimal.positional
  simp only [hsplit.split, h, Bool.false_eq_true, if_false]
  by_cases hempty : places.isEmpty = true
  · simp only [hempty, if_true]
    exact ⟨hne, fun c hc => Or.inl (hdigits c (by simp [hc]))⟩
  · simp only [hempty]
    refine ⟨by simp, fun c hc => ?_⟩
    rcases List.mem_append.mp hc with hc | hc
    · exact Or.inl (hdigits c (by simp [hc]))
    rcases List.mem_cons.mp hc with rfl | hc
    · exact Or.inr rfl
    · exact Or.inl (hdigits c (by simp [hc]))

/-- A numeral is a point or one of the ten digits. -/
theorem numeralGlyph_isMark {c : Char} (h : c.isDigit = true ∨ c = '.') :
    Meets (numeralGlyph c) Glyph.IsMark fun _ => False := by
  unfold numeralGlyph
  by_cases hpoint : c = '.'
  · rw [if_pos hpoint]
    trivial
  · have hdigit := h.resolve_right hpoint
    have hcode := Text.toNat_of_isDigit hdigit
    rw [if_neg hpoint, if_pos hdigit]
    show (0 : Int) ≤ c.toNat - 48 ∧ (c.toNat : Int) - 48 ≤ 9
    omega

/-- A decimal that is no zero with a sign is drawn. -/
theorem Kept.ofDecimal (hP : Kept P) (level : Int) {v : Decimal}
    (h : v.negative = true → v.digits ≠ 0) :
    Meets (ofDecimal Renderer.ascii level v) P fun _ => False := by
  -- the sign is drawn apart from the digits, so they are those of a decimal without one
  obtain ⟨hne, hnumerals⟩ := positional_numerals (negative_size h)
  unfold Block.ofDecimal
  refine (Meets.mapM fun c hc => numeralGlyph_isMark (hnumerals c hc)).bind fun gs hgs => ?_
  have hmarks : ∀ g ∈ gs, g.IsMark := by
    intro g hg
    obtain ⟨c, -, hmark⟩ := exists_of_forall₂_right hgs hg
    exact hmark
  have hsome : gs ≠ [] := by
    rintro rfl
    exact hne (List.forall₂_nil_right_iff.mp hgs)
  have hsigned : ∀ g ∈ (if v.isBelowZero then Glyph.subtract :: gs else gs), g.IsMark := by
    split
    · exact List.forall_mem_cons.mpr ⟨trivial, hmarks⟩
    · exact hmarks
  refine hP.row ?_ (List.forall_mem_map.mpr fun g hg => hP.mark level (hsigned g hg))
  rw [ne_eq, List.map_eq_nil_iff]
  split
  · simp
  · exact hsome

end Block

/-- A number that can be drawn: a fraction of 64-bit integers, or a decimal that is no zero with a
sign. -/
def Number.Drawable : Number → Prop
  | .ratio n d => isWord n = true ∧ isWord d = true
  | .decimal v _ => v.negative = true → v.digits ≠ 0

namespace Block

variable {P : Block → Prop}

/-- No whole number is a zero with a sign. -/
theorem ofInt_sign (n : Int) :
    (Decimal.ofInt n).negative = true → (Decimal.ofInt n).digits ≠ 0 := by
  intro hnegative
  have hn : n < 0 := of_decide_eq_true hnegative
  show n.natAbs ≠ 0
  omega

/-- The notation of a number has the property: it consists of digits, a point, signs and fractions.
-/
theorem Kept.ofNumber (hP : Kept P) (level : Int) {x : Number} (h : x.Drawable) :
    Meets (ofNumber Renderer.ascii level x) P fun _ => False := by
  cases x with
  | decimal v a => exact hP.ofDecimal level h
  | ratio n d =>
    rw [Block.ofNumber]
    by_cases hd : d = 1
    · rw [if_pos hd]
      exact hP.ofDecimal level (ofInt_sign n)
    · rw [if_neg hd, Number.fit_word h.1, ok_bind]
      refine (hP.ofDecimal level (ofInt_sign n)).bind fun a ha => ?_
      rw [Number.fit_word h.2, ok_bind]
      exact (hP.ofDecimal level (ofInt_sign d)).bind fun b hb => hP.fraction level ha hb

/-- The property admits the node of an expression: a number can be drawn, a variable is drawn
with the property, and a call has arguments unless the property admits one without any. -/
def AdmitsNode (P : Block → Prop) : Expr → Prop
  | .number x => x.Drawable
  | .var name => ∀ level, P (ofGlyph Renderer.ascii level (.var name))
  | .call f es => es = [] → ∀ level, P (call Renderer.ascii level f [])
  | .sqrt _ | .parentheses _ | .power _ _ | .binary _ _ _ => True

/-- All operations but the quotient stand between their operands. -/
theorem ofExpr_binary (level : Int) {op : BinaryOp} (h : op ≠ .divide) (left right : Expr) :
    ofExpr Renderer.ascii level (.binary op left right) = do
      let l ← ofExpr Renderer.ascii level left
      return joined Renderer.ascii level op l (← ofExpr Renderer.ascii level right) := by
  cases op with
  | divide => exact absurd rfl h
  | add | subtract | multiply => rfl

/-- The operands of an expression have the property one by one. -/
theorem ofExprs_meets {level : Int} {es : List Expr}
    (h : ∀ e ∈ es, Meets (ofExpr Renderer.ascii level e) P fun _ => False) :
    Meets (ofExprs Renderer.ascii level es) (fun bs => bs.length = es.length ∧ ∀ b ∈ bs, P b)
      fun _ => False := by
  induction es with
  | nil => exact ⟨rfl, by simp⟩
  | cons e es ih =>
    obtain ⟨he, hes⟩ := List.forall_mem_cons.mp h
    rw [ofExprs]
    refine he.bind fun b hb => ?_
    exact (ih hes).bind fun bs hbs =>
      ⟨by simp [hbs.1], List.forall_mem_cons.mpr ⟨hb, hbs.2⟩⟩

/-- Every expression is drawn, and the drawing has the property. -/
theorem Kept.ofExpr (hP : Kept P) {e : Expr} (h : e.Everywhere (AdmitsNode P)) (level : Int) :
    Meets (ofExpr Renderer.ascii level e) P fun _ => False := by
  induction h generalizing level with
  | @intro e here _ ih =>
    cases e with
    | number x => exact hP.ofNumber level here
    | var name => exact here level
    | sqrt inner =>
      rw [Block.ofExpr]
      exact (ih inner (by simp [Expr.operands]) level).bind fun b hb => hP.root level hb
    | parentheses inner =>
      rw [Block.ofExpr]
      exact (ih inner (by simp [Expr.operands]) level).bind fun b hb => hP.parenthesised level hb
    | power base exponent =>
      rw [Block.ofExpr]
      refine (ih base (by simp [Expr.operands]) level).bind fun a ha => ?_
      exact (ih exponent (by simp [Expr.operands]) (level + 1)).bind fun b hb => hP.raised ha hb
    | binary op left right =>
      have hleft := ih left (by simp [Expr.operands]) level
      have hright := ih right (by simp [Expr.operands]) level
      cases op with
      | divide =>
        rw [Block.ofExpr]
        exact hleft.bind fun a ha => hright.bind fun b hb => hP.fraction level ha hb
      | add | subtract | multiply =>
        rw [ofExpr_binary level (by simp)]
        exact hleft.bind fun a ha => hright.bind fun b hb => hP.joined level _ ha hb
    | call f es =>
      -- what is asked of a call concerns one without arguments only
      rw [Block.ofExpr]
      have hargs : ∀ e ∈ es, Meets (Block.ofExpr Renderer.ascii level e) P fun _ => False :=
        fun e he => ih e he level
      refine (ofExprs_meets hargs).bind fun bs hbs => ?_
      refine hP.call level f hbs.2 fun hnil => here ?_ level
      rw [← List.length_eq_zero_iff, ← hbs.1, hnil, List.length_nil]

end Block
end Mathpad
