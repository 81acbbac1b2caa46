import Mathlib.Algebra.BigOperators.Group.Multiset.Basic
import Mathlib.Tactic.Abel
import Mathpad.Proofs.Movements
import Mathpad.Proofs.Notations

/-!
# Which glyphs a drawing has

Putting blocks together neither loses glyphs nor makes new ones, apart from those of the notation
itself (`kinds_row`, `kinds_root`, `kinds_fraction`, `kinds_call`). So a drawing with a cursor differs
from the one without by what the cursor changes on its way (`ofRow_gains`): there is one glyph more,
those that span what the cursor is in may be larger, and in an empty row there is no placeholder
(`Gains`).

This is true whatever the sizes of the glyphs are, so no renderer is singled out here.
-/
set_option autoImplicit false

namespace Mathpad

/-- A glyph without regard to the size that it spans. -/
def Glyph.shape : Glyph → Glyph
  | fraction _ => fraction 0
  | leftParenthesis _ => leftParenthesis 0
  | rightParenthesis _ => rightParenthesis 0
  | sqrt _ => sqrt ⟨0, 0⟩
  | cursor _ => cursor 0
  | glyph => glyph

/-- The glyphs of an item that span its rows. -/
def Item.spanning : Item → Multiset Glyph
  | .token _ | .power _ => 0
  | .sqrt _ => {.sqrt ⟨0, 0⟩}
  | .parentheses _ | .call _ _ => {.leftParenthesis 0, .rightParenthesis 0}
  | .fraction _ _ => {.fraction 0}

/-- The placeholder that is shown in an empty row. -/
def Row.placeholders (row : Row) : Multiset Glyph := if row.isEmpty then {.placeholder} else 0

/-- The glyphs that span the row in focus. -/
def Focus.spanning (f : Focus) : Multiset Glyph := (f.frames.map (·.item.spanning)).sum

namespace Block

variable {r : Renderer} {level : Int} {a b c d plain : Block}

/-! ## The glyphs of a block -/

/-- The glyphs of a block, wherever they stand. -/
def kinds (b : Block) : Multiset Glyph := (b.glyphs.map (·.glyph) : List Glyph)

@[simp] theorem kinds_moved (b : Block) (dx dy : Int) : (b.moved dx dy).kinds = b.kinds := by
  rw [kinds, Block.moved, List.map_map]
  rfl

/-- The glyphs of two blocks together. -/
theorem kinds_append (h : c.glyphs = a.glyphs ++ b.glyphs) : c.kinds = a.kinds + b.kinds := by
  rw [kinds, h, List.map_append]
  rfl

@[simp] theorem kinds_alongBaseline (a b : Block) :
    (a.alongBaseline b).kinds = a.kinds + b.kinds := by
  unfold Block.alongBaseline
  split
  · exact (kinds_append rfl).trans (by rw [kinds_moved])
  · by_cases hlow : a.baseline < b.baseline
    · rw [if_pos hlow]
      exact (kinds_append rfl).trans (by rw [kinds_moved])
    · rw [if_neg hlow]
      exact (kinds_append rfl).trans (by rw [kinds_moved, add_comm])

@[simp] theorem kinds_alongCentre (a b : Block) (leader : Leader) :
    (a.alongCentre b leader).kinds = a.kinds + b.kinds := by
  unfold Block.alongCentre
  dsimp only
  split
  · exact (kinds_append rfl).trans (by rw [kinds_moved])
  · exact (kinds_append rfl).trans (by rw [kinds_moved, add_comm])

@[simp] theorem kinds_beside (a b : Block) : (a.beside b).kinds = a.kinds + b.kinds := by
  rw [Block.beside, kinds_alongBaseline, Block.rightOf, kinds_moved]

/-- Gathering blocks in groups loses no glyph. -/
theorem kinds_foldl_attach (bs row : List Block) :
    ((bs.foldl attach row).map kinds).sum = (row.map kinds).sum + (bs.map kinds).sum := by
  induction bs generalizing row with
  | nil => exact (add_zero _).symm
  | cons b bs ih =>
    have hattach : ((attach row b).map kinds).sum = (row.map kinds).sum + b.kinds := by
      cases row with
      | nil => simp [attach]
      | cons left more =>
        by_cases hbinds : b.special.binds = true
        · rw [attach_cons_of_binds hbinds, List.map_cons, List.sum_cons, kinds_beside,
            List.map_cons, List.sum_cons, add_right_comm]
        · rw [attach_of_not_binds (by simpa using hbinds), List.map_cons, List.sum_cons, add_comm]
    rw [List.foldl_cons, ih, hattach, List.map_cons, List.sum_cons, add_assoc]

theorem kinds_foldl_beside (bs : List Block) (done : Block) :
    (bs.foldl beside done).kinds = done.kinds + (bs.map kinds).sum := by
  induction bs generalizing done with
  | nil => exact (add_zero _).symm
  | cons b bs ih =>
    rw [List.foldl_cons, ih, kinds_beside, List.map_cons, List.sum_cons, add_assoc]

/-- A row has the glyphs of its blocks. -/
theorem kinds_row (bs : List Block) : (row bs).kinds = (bs.map kinds).sum := by
  rw [row_eq, kinds_foldl_beside, List.map_reverse, List.sum_reverse, kinds_foldl_attach]
  exact (zero_add _).trans (zero_add _)

theorem kinds_root (b : Block) : (root r level b).kinds = {.sqrt b.area} + b.kinds :=
  (kinds_append rfl).trans (congrArg _ (kinds_moved b _ _))

/-- A fraction adds its bar, which spans the wider one of its parts. -/
theorem kinds_fraction (a b : Block) : (fraction r level a b).kinds =
    {.fraction (max a.area.width b.area.width)} + (a.kinds + b.kinds) := by
  rw [Block.fraction, kinds_alongCentre, kinds_alongCentre, Block.below, Block.below, kinds_moved,
    kinds_moved, add_comm a.kinds, add_assoc]
  rfl

/-- Parentheses add their two glyphs, which span the block. -/
theorem kinds_parenthesised (b : Block) : (parenthesised r level b).kinds =
    {.leftParenthesis b.area.height, .rightParenthesis b.area.height} + b.kinds := by
  refine (kinds_row _).trans ?_
  show {.leftParenthesis b.area.height} + (b.kinds + ({.rightParenthesis b.area.height} + 0)) = _
  rw [add_zero, add_comm b.kinds, ← add_assoc]
  rfl

/-- The glyphs of blocks with another one between each two of them. -/
theorem sum_kinds_intersperse (sep : Block) (bs : List Block) :
    ((bs.intersperse sep).map kinds).sum = (bs.map kinds).sum + (bs.length - 1) • sep.kinds := by
  induction bs using List.twoStepInduction with
  | nil | singleton => simp
  | cons_cons b c bs _ ih =>
    rw [List.intersperse_cons_cons, List.map_cons, List.sum_cons, List.map_cons, List.sum_cons,
      ih c]
    simp only [List.map_cons, List.sum_cons, List.length_cons, Nat.add_sub_cancel, succ_nsmul]
    abel

/-- A call adds its name, two brackets, and a comma less than it has arguments. -/
theorem kinds_call (r : Renderer) (level : Int) (f : NamedFunction) (args : List Block) :
    ∃ height : Int, (call r level f args).kinds = {.leftParenthesis height, .rightParenthesis height} +
      ((args.map kinds).sum + ({.functionName f} + (args.length - 1) • {.comma})) := by
  refine ⟨(row (args.intersperse (ofGlyph r level .comma))).area.height, (kinds_row _).trans ?_⟩
  have hjoined := (kinds_row _).trans (sum_kinds_intersperse (ofGlyph r level .comma) args)
  show {.functionName f} + ({.leftParenthesis _} +
    ((row (args.intersperse (ofGlyph r level .comma))).kinds + ({.rightParenthesis _} + 0))) = _
  rw [hjoined, Multiset.insert_eq_cons, ← Multiset.singleton_add]
  show _ + (_ + (_ + _ • ({.comma} : Multiset Glyph) + _)) = _
  abel

/-! ## What a cursor adds -/

/-- The second of two blocks is the first one with a cursor. Of the glyphs of the first one, some are
`gone`; those of the shapes `around` may span another size now. -/
def Gains (around gone : Multiset Glyph) (plain b : Block) : Prop :=
  ∃ (height : Int) (same kept grown : Multiset Glyph),
    plain.kinds = same + kept + gone ∧ b.kinds = {.cursor height} + (same + grown) ∧
      kept.map Glyph.shape = around ∧ grown.map Glyph.shape = around

section Gains

variable {around gone : Multiset Glyph}

/-- More glyphs in both blocks, of which some span what was there before. -/
theorem Gains.extend (h : Gains around gone plain b) (more : Multiset Glyph)
    {kept grown shapes : Multiset Glyph}
    (hplain : c.kinds = kept + (plain.kinds + more)) (hb : d.kinds = grown + (b.kinds + more))
    (hkept : kept.map Glyph.shape = shapes) (hgrown : grown.map Glyph.shape = shapes) :
    Gains (around + shapes) gone c d := by
  obtain ⟨height, same, kept', grown', hplain', hb', hkept', hgrown'⟩ := h
  refine ⟨height, same + more, kept' + kept, grown' + grown, ?_, ?_, ?_, ?_⟩
  · rw [hplain, hplain']
    abel
  · rw [hb, hb']
    abel
  · rw [Multiset.map_add, hkept', hkept]
  · rw [Multiset.map_add, hgrown', hgrown]

/-- More glyphs in both blocks, none of which changes. -/
theorem Gains.beside (h : Gains around gone plain b) {more : Multiset Glyph}
    (hplain : c.kinds = plain.kinds + more) (hb : d.kinds = b.kinds + more) :
    Gains around gone c d := by
  have hboth : Gains (around + 0) gone c d :=
    h.extend more (by rw [hplain, zero_add]) (by rw [hb, zero_add]) rfl rfl
  rwa [add_zero] at hboth

/-- The glyphs of some blocks are those of any one of them and those of the others. -/
theorem sum_kinds_split (bs cs : List Block) (b : Block) :
    ((bs ++ b :: cs).map kinds).sum = b.kinds + ((bs.map kinds).sum + (cs.map kinds).sum) := by
  rw [List.map_append, List.sum_append, List.map_cons, List.sum_cons]
  abel

/-- Among the same neighbours. -/
theorem Gains.row (h : Gains around gone plain b) (bs cs : List Block) :
    Gains around gone (row (bs ++ plain :: cs)) (row (bs ++ b :: cs)) :=
  h.beside ((kinds_row _).trans (sum_kinds_split bs cs _))
    ((kinds_row _).trans (sum_kinds_split bs cs _))

/-- A cursor inside a root may change what the sign spans. -/
theorem Gains.root (h : Gains around gone plain b) :
    Gains (around + {.sqrt ⟨0, 0⟩}) gone (root r level plain) (root r level b) :=
  h.extend 0 (by rw [kinds_root, add_zero]) (by rw [kinds_root, add_zero]) rfl rfl

/-- A cursor inside parentheses may change what these span. -/
theorem Gains.parenthesised (h : Gains around gone plain b) :
    Gains (around + {.leftParenthesis 0, .rightParenthesis 0}) gone (parenthesised r level plain)
      (parenthesised r level b) :=
  h.extend 0 (by rw [kinds_parenthesised, add_zero])
    (by rw [kinds_parenthesised, add_zero]) rfl rfl

/-- A cursor in a numerator may change what the bar spans. -/
theorem Gains.fraction_top (h : Gains around gone plain b) (bottom : Block) :
    Gains (around + {.fraction 0}) gone (fraction r level plain bottom)
      (fraction r level b bottom) :=
  h.extend bottom.kinds (kinds_fraction _ _) (kinds_fraction _ _) rfl rfl

/-- A cursor in a denominator may change what the bar spans. -/
theorem Gains.fraction_bottom (h : Gains around gone plain b) (top : Block) :
    Gains (around + {.fraction 0}) gone (fraction r level top plain) (fraction r level top b) :=
  h.extend top.kinds (by rw [kinds_fraction, add_comm top.kinds])
    (by rw [kinds_fraction, add_comm top.kinds]) rfl rfl

/-- A cursor in an argument may change what the brackets of the call span. -/
theorem Gains.call (h : Gains around gone plain b) (f : NamedFunction) (bs cs : List Block) :
    Gains (around + {.leftParenthesis 0, .rightParenthesis 0}) gone
      (call r level f (bs ++ plain :: cs)) (call r level f (bs ++ b :: cs)) := by
  obtain ⟨height, hplain⟩ := kinds_call r level f (bs ++ plain :: cs)
  obtain ⟨height', hb⟩ := kinds_call r level f (bs ++ b :: cs)
  have hlength : (bs ++ b :: cs).length = (bs ++ plain :: cs).length := by simp
  rw [sum_kinds_split, add_assoc plain.kinds] at hplain
  rw [sum_kinds_split, add_assoc b.kinds, hlength] at hb
  exact h.extend _ hplain hb rfl rfl

end Gains

/-! ## Where the path goes -/

variable (r level)

/-- Each item is laid out with the part of the path that is meant for it. -/
theorem ofItems_eq_mapM (target : Path.Target) (index : Nat) (items : List Item) :
    ofItems r level target index items =
      (items.zipIdx index).mapM fun p => ofItem r level (target.inside p.2) p.1 := by
  induction items generalizing index with
  | nil => rfl
  | cons item items ih => rw [ofItems, ih, List.zipIdx_cons, List.mapM_cons]

/-- Each argument is laid out with the part of the path that is meant for it. -/
theorem ofArgs_eq_mapM (path : Option Path) (slot : Nat) (args : List Row) :
    ofArgs r level path slot args = (args.zipIdx slot).mapM fun p =>
      Path.intoSlot path p.2 >>= fun inside => ofRow r level inside p.1 := by
  induction args generalizing slot with
  | nil => rfl
  | cons arg args ih => rw [ofArgs_cons, ih, List.zipIdx_cons, List.mapM_cons, bind_assoc]

/-- Every row can be laid out without a cursor. -/
theorem exists_ofRow (row : Row) : ∃ b, ofRow r level none row = .ok b := by
  obtain ⟨bs, hbs⟩ := exists_ofItems r level 0 row
  obtain ⟨b, hb⟩ := exists_ofItemBlocks r level bs
  rw [ofRow, Path.target, ok_bind, hbs, ok_bind]
  exact ⟨b, hb⟩

variable {r level} {around gone : Multiset Glyph} {rest : Path} {k : Nat}

/-- A path into one item of a row changes the block of that one only. -/
theorem ofItems_exchange {items : List Item} {item : Item} (hitem : items[k]? = some item)
    (hplain : ofItem r level none item = .ok plain) (hb : ofItem r level (some rest) item = .ok b) :
    ∃ bs cs, ofItems r level .nowhere 0 items = .ok (bs ++ plain :: cs) ∧
      ofItems r level (.into k rest) 0 items = .ok (bs ++ b :: cs) := by
  rw [ofItems_eq_mapM, ofItems_eq_mapM]
  refine mapM_exchange (x := (item, k)) (k := k) ?_ hplain ?_ fun i w hw hne => ?_
  · rw [List.getElem?_zipIdx, hitem, Nat.zero_add]
    rfl
  · rw [Path.Target.inside, if_pos rfl]
    exact hb
  · rw [List.getElem?_zipIdx, Nat.zero_add, Option.map_eq_some_iff] at hw
    obtain ⟨other, -, rfl⟩ := hw
    obtain ⟨c, hc⟩ := exists_ofItem r level other
    refine ⟨c, hc, ?_⟩
    rw [Path.Target.inside, if_neg (Ne.symm hne)]
    exact hc

/-- A path into one argument changes the block of that one only. -/
theorem ofArgs_exchange {args : List Row} {inner : Row} (hinner : args[k]? = some inner)
    (hplain : ofRow r level none inner = .ok plain)
    (hb : ofRow r level (some rest) inner = .ok b) :
    ∃ bs cs, ofArgs r level none 0 args = .ok (bs ++ plain :: cs) ∧
      ofArgs r level (some ((k : Int) :: rest)) 0 args = .ok (bs ++ b :: cs) := by
  rw [ofArgs_eq_mapM, ofArgs_eq_mapM]
  refine mapM_exchange (x := (inner, k)) (k := k) ?_ hplain ?_ fun i w hw hne => ?_
  · rw [List.getElem?_zipIdx, hinner, Nat.zero_add]
    rfl
  · rw [Path.intoSlot, Path.split, ok_bind]
    dsimp only
    rw [if_pos rfl]
    exact hb
  · rw [List.getElem?_zipIdx, Nat.zero_add, Option.map_eq_some_iff] at hw
    obtain ⟨other, -, rfl⟩ := hw
    obtain ⟨c, hc⟩ := exists_ofRow r level other
    refine ⟨c, hc, ?_⟩
    rw [Path.intoSlot, Path.split, ok_bind]
    dsimp only
    rw [if_neg (by simpa using Ne.symm hne)]
    exact hc

/-- There are two drawings, the second one of which gains a cursor. -/
def Gained (first second : Outcome Block) (around gone : Multiset Glyph) : Prop :=
  ∃ plain b, first = .ok plain ∧ second = .ok b ∧ Gains around gone plain b

/-- What is built of two drawings in one way gains what the way of building keeps. -/
theorem Gained.build {first second c d : Outcome Block} {around' : Multiset Glyph}
    (h : Gained first second around gone) (make : Block → Block)
    (hc : c = first >>= fun b => .ok (make b)) (hd : d = second >>= fun b => .ok (make b))
    (hgains : ∀ {plain b}, Gains around gone plain b →
      Gains around' gone (make plain) (make b)) :
    Gained c d around' gone := by
  obtain ⟨plain, b, rfl, rfl, hplain⟩ := h
  exact ⟨_, _, hc, hd, hgains hplain⟩

/-- A cursor in either part of a fraction may change what the bar spans. -/
theorem fraction_gains {top bottom inner : Row} {slot : Nat}
    (hslot : (Item.fraction top bottom).slots[slot]? = some inner)
    (h : Gained (ofRow r level none inner) (ofRow r level (some rest) inner) around gone) :
    Gained (ofItem r level none (.fraction top bottom))
      (ofItem r level (some ((slot : Int) :: rest)) (.fraction top bottom))
      (around + {.fraction 0}) gone := by
  have hparts : Path.intoFraction none = .ok (none, none) := rfl
  -- the path goes into the upper part or into the lower one
  rcases slot with _ | _ | slot
  · cases hslot
    obtain ⟨under, hunder⟩ := exists_ofRow r level bottom
    have hpart : Path.intoFraction (some (((0 : Nat) : Int) :: rest)) = .ok (some rest, none) := rfl
    refine h.build (fraction r level · under) ?_ ?_ fun hgains => hgains.fraction_top under
    · simp only [ofItem_fraction, hparts, ok_bind, hunder]
      rfl
    · simp only [ofItem_fraction, hpart, ok_bind, hunder]
      rfl
  · cases hslot
    obtain ⟨above, habove⟩ := exists_ofRow r level top
    have hpart : Path.intoFraction (some (((1 : Nat) : Int) :: rest)) = .ok (none, some rest) := rfl
    refine h.build (fraction r level above) ?_ ?_ fun hgains => hgains.fraction_bottom above
    · rw [ofItem_fraction, hparts, ok_bind, habove]
      rfl
    · rw [ofItem_fraction, hpart, ok_bind, habove]
      rfl
  · simp [Item.slots] at hslot

/-- Where a path goes on in a row of an item, the item gains what that row gains, and its own glyphs
are around it. -/
theorem ofItem_gains {item : Item} {slot : Nat} {inner : Row}
    (hslot : item.slots[slot]? = some inner)
    (h : ∀ level, Gained (ofRow r level none inner) (ofRow r level (some rest) inner) around gone)
    (level : Int) :
    Gained (ofItem r level none item) (ofItem r level (some ((slot : Int) :: rest)) item)
      (around + item.spanning) gone := by
  have hinto : Path.intoSlot (some (((0 : Nat) : Int) :: rest)) 0 = .ok (some rest) :=
    congrArg Except.ok (if_pos rfl)
  have hnone : Path.intoSlot none 0 = .ok none := rfl
  -- an item with one row has it in slot zero, and that is where the path goes in
  have honly : ∀ contents : Row, [contents][slot]? = some inner → slot = 0 ∧ contents = inner := by
    intro contents hcontents
    rcases slot with _ | slot
    · exact ⟨rfl, Option.some_inj.mp hcontents⟩
    · simp at hcontents
  cases item with
  | token t => simp [Item.slots] at hslot
  | sqrt contents =>
    obtain ⟨rfl, rfl⟩ := honly contents hslot
    refine (h level).build (root r level) ?_ ?_ Gains.root
    · rw [ofItem_sqrt, hnone]
      rfl
    · rw [ofItem_sqrt, hinto]
      rfl
  | parentheses contents =>
    obtain ⟨rfl, rfl⟩ := honly contents hslot
    refine (h level).build (parenthesised r level) ?_ ?_ Gains.parenthesised
    · rw [ofItem_parentheses, hnone]
      rfl
    · rw [ofItem_parentheses, hinto]
      rfl
  | power exponent =>
    obtain ⟨rfl, rfl⟩ := honly exponent hslot
    refine (h (level + 1)).build superscript ?_ ?_ fun hgains => ?_
    · rw [ofItem_power, hnone]
      rfl
    · rw [ofItem_power, hinto]
      rfl
    · rw [Item.spanning, add_zero]
      exact hgains
  | fraction top bottom => exact fraction_gains hslot (h level)
  | call f args =>
    -- the drawings of the arguments differ in the one that the path goes into, and in no other
    obtain ⟨plain, b, hplain, hb, hgains⟩ := h level
    have harg : args[slot]? = some inner := hslot
    obtain ⟨bs, cs, hbs, hcs⟩ := ofArgs_exchange harg hplain hb
    refine ⟨call r level f (bs ++ plain :: cs), call r level f (bs ++ b :: cs), ?_, ?_,
      hgains.call f bs cs⟩
    · rw [Block.ofItem, hbs]
      rfl
    · rw [Block.ofItem, hcs]
      rfl

/-- A row with the cursor in it gains the cursor, and loses the placeholder that is in an empty one. -/
theorem ofItemBlocks_gains {bs : List Block} {place : Nat} (hplace : place ≤ bs.length) :
    Gained (ofItemBlocks r level .nowhere bs) (ofItemBlocks r level (.cursor place) bs) 0
      (if bs.isEmpty then {.placeholder} else 0) := by
  obtain ⟨beside, hbeside, -⟩ := (besideCursor_meets r level hplace).exists_ok
  obtain ⟨cursor, hcursor⟩ : ∃ c, c =
    { ofGlyph r level (.cursor beside.area.height) with baseline := beside.baseline } := ⟨_, rfl⟩
  have hkinds : cursor.kinds = {.cursor beside.area.height} := by
    rw [hcursor]
    rfl
  have hinserted : withCursor r level (.cursor place) bs = .ok (bs.insertIdx place cursor) := by
    rw [withCursor, hbeside, ok_bind, ← Place.insert_natCast hplace, hcursor]
    rfl
  have hwith : ofItemBlocks r level (.cursor place) bs =
      .ok (Block.row (bs.insertIdx place cursor)) := by
    have hmem : cursor ∈ bs.insertIdx place cursor := (List.mem_insertIdx hplace).mpr (.inl rfl)
    obtain ⟨c, cs, hcs⟩ := List.exists_cons_of_ne_nil (List.ne_nil_of_mem hmem)
    rw [ofItemBlocks, hinserted, ok_bind, hcs]
    rfl
  -- wherever it is put in, the cursor is one block more
  have hsum : (Block.row (bs.insertIdx place cursor)).kinds =
      {.cursor beside.area.height} + (bs.map kinds).sum := by
    have hperm := ((List.perm_insertIdx cursor bs hplace).map kinds).sum_eq
    rw [kinds_row, hperm, List.map_cons, List.sum_cons, hkinds]
  cases bs with
  | nil =>
    refine ⟨_, _, rfl, hwith, _, 0, 0, 0, ?_, hsum, rfl, rfl⟩
    exact (kinds_row _).trans (by simp [kinds, ofGlyph])
  | cons c cs =>
    refine ⟨_, _, rfl, hwith, beside.area.height, ((c :: cs).map kinds).sum, 0, 0, ?_, ?_, rfl, rfl⟩
    · exact (kinds_row _).trans (by simp)
    · rw [hsum, add_zero]

/-- With a path that can be followed the drawing of a row gains a cursor. Around it are the glyphs of
the items on the way. -/
theorem ofRow_gains (r : Renderer) {root : Row} {p : Path} (h : p.Addresses root) :
    ∃ f, Focus.ofPath root p = .ok f ∧ ∀ level,
      Gained (ofRow r level none root) (ofRow r level (some p) root) f.spanning
        f.row.placeholders := by
  -- on the way in, what has been passed is not known yet
  have hfrom : ∃ passed row place,
      (∀ frames, Focus.follow frames root p = .ok ⟨passed ++ frames, row, place⟩) ∧ ∀ level,
        Gained (ofRow r level none root) (ofRow r level (some p) root)
          (passed.map (·.item.spanning)).sum row.placeholders := by
    induction h with
    | @place row place hplace =>
      refine ⟨[], row, place, fun _ => rfl, fun level => ?_⟩
      obtain ⟨bs, hbs⟩ := exists_ofItems r level 0 row
      have hcursor : ofItems r level (.cursor place) 0 row = .ok bs := by
        rw [← hbs, ofItems_eq_mapM, ofItems_eq_mapM]
        rfl
      have hlength : bs.length = row.length := by
        rw [ofItems_eq_mapM] at hbs
        rw [← (forall₂_of_mapM hbs).length_eq, List.length_zipIdx]
      have hempty : row.isEmpty = bs.isEmpty := by
        rw [Bool.eq_iff_iff, List.isEmpty_iff_length_eq_zero, List.isEmpty_iff_length_eq_zero,
          hlength]
      rw [Block.ofRow, Path.target, ok_bind, hbs, ok_bind, Block.ofRow, Path.target, ok_bind,
        hcursor, ok_bind, Row.placeholders, hempty]
      exact ofItemBlocks_gains (hlength ▸ hplace)
    | @inside row inner item index slot rest hitem hslot hrest ih =>
      obtain ⟨passed, last, place, hfollow, hgains⟩ := ih
      obtain ⟨hindex, -⟩ := List.getElem?_eq_some_iff.mp hitem
      refine ⟨passed ++ [⟨row, index, item, slot⟩], last, place, fun frames => ?_, fun level => ?_⟩
      · have hne : rest ≠ [] := by
          cases hrest <;> simp
        rw [Focus.follow_inward hitem hslot hne, hfollow, List.append_assoc]
        rfl
      · obtain ⟨plain, b, hplain, hb, hadded⟩ := ofItem_gains hslot hgains level
        obtain ⟨bs, cs, hbs, hcs⟩ := ofItems_exchange hitem hplain hb
        refine ⟨Block.row (bs ++ plain :: cs), Block.row (bs ++ b :: cs), ?_, ?_, ?_⟩
        · rw [Block.ofRow, Path.target, ok_bind, hbs, ok_bind]
          cases bs <;> rfl
        · rw [Block.ofRow, Path.target_inside hindex, ok_bind, hcs, ok_bind]
          cases bs <;> rfl
        · rw [List.map_append, List.sum_append, List.map_singleton, List.sum_singleton]
          exact hadded.row bs cs
  obtain ⟨passed, row, place, hfollow, hgains⟩ := hfrom
  refine ⟨_, hfollow [], ?_⟩
  rwa [List.append_nil]

end Block
end Mathpad
