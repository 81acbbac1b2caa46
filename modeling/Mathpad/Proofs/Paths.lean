import Mathlib.Algebra.Ring.Parity
import Mathpad.Cursor.Focus
import Mathpad.Proofs.Everywhere
import Mathpad.Proofs.Outcome

/-!
# Paths that lead to a place

`Path.Addresses row path` says that a path can be followed in a row: each of its items is
there, each of its slots belongs to its item, and it ends at a place of the row that it has
reached. The same is said of a focus by `Focus.Stands`, from the inside out: every frame
around it fits around the next one.

The two go together (`Focus.exists_of_addresses`, `Focus.Stands.addresses`), and following the
path of a focus leads back to it (`Focus.Stands.ofPath_path`). So what happens at the end of a
path is said of its focus, where the end is at hand. A row that is put back into the whole
leaves all the places on the way where they were, and the row from before can be put back in the same
way (`Focus.Exchange`, `Focus.Leads.rebuild`).
-/
set_option autoImplicit false

namespace Mathpad

/-! ## Places in a list -/

namespace Place

variable {α : Type} {xs : List α} {x : α} {i n : Nat}

theorem index?_natCast (h : i < n) : index? n i = some i := by
  rw [index?, if_pos (Int.natCast_nonneg i), if_pos (by omega), Int.toNat_natCast]

/-- A gap within a list or at its end is taken as it is. -/
theorem gap_natCast (h : i ≤ n) : gap n i = i := by
  rw [gap, if_pos (Int.natCast_nonneg i), Int.toNat_natCast]
  omega

/-- Looking at an index within a list finds what is there. -/
theorem get_natCast (h : xs[i]? = some x) : get xs i = .ok x := by
  obtain ⟨hi, -⟩ := List.getElem?_eq_some_iff.mp h
  rw [get, index?_natCast hi, Option.bind_some, h]

/-- The place before the end is that of the last member. -/
theorem get_last (h : xs[n]? = some x) (hlast : xs.length = n + 1) : get xs (-1) = .ok x := by
  have hindex : index? xs.length (-1) = some n := by
    rw [index?, if_neg (by omega), if_pos (by omega)]
    exact congrArg some (by omega)
  rw [get, hindex, Option.bind_some, h]

/-- Replacing at an index within a list puts the new member there. -/
theorem replace_natCast (h : i < xs.length) : replace xs i x = .ok (xs.set i x) := by
  rw [replace, index?_natCast h]

/-- Erasing at an index within a list takes out what is there. -/
theorem erase_natCast (h : i < xs.length) : erase xs i = .ok (xs.eraseIdx i) := by
  rw [erase, index?_natCast h]

/-- Inserting at a gap within a list puts the new member there, and what was there behind it. -/
theorem insert_natCast (h : i ≤ xs.length) : insert xs i x = xs.insertIdx i x := by
  rw [insert, gap_natCast h]

end Place

/-! ## Following a path -/

namespace Path

/-- The path can be followed in the row: it ends at a place between two items or at an end, or
goes on inside one of the items, in a row that this item has. -/
inductive Addresses : Row → Path → Prop
  | place {row : Row} {place : Nat} (h : place ≤ row.length) : Addresses row [(place : Int)]
  | inside {row inner : Row} {item : Item} {index slot : Nat} {rest : Path}
      (hitem : row[index]? = some item) (hslot : item.slots[slot]? = some inner)
      (h : Addresses inner rest) : Addresses row ((index : Int) :: (slot : Int) :: rest)

variable {row : Row} {p : Path}

theorem Addresses.odd_length (h : p.Addresses row) : Odd p.length := by
  induction h with
  | place => exact odd_one
  | inside _ _ _ ih => exact ih.add_even even_two

/-- Indexes at the end of a path are popped together. -/
theorem pop_append (p q : Path) : (p ++ q).pop q.length = p := by
  have hkept : ((p ++ q).length : Int) - q.length = p.length := by
    rw [List.length_append]
    omega
  rw [pop, hkept, Place.gap_natCast (by simp), List.take_left]

theorem shift_append (p : Path) {i n : Int} (h : 0 ≤ i + n) :
    (p ++ [i]).shift n = .ok (p ++ [i + n]) := by
  rw [shift, List.getLast?_concat]
  dsimp only
  rw [if_neg (by omega), List.dropLast_concat]

end Path

/-! ## Slots -/

namespace Item

/-- The slots of an item are numbered from the left, the first one being zero. -/
theorem slot_natCast {item : Item} {inner : Row} {j : Nat} (h : item.slots[j]? = some inner) :
    item.slot j = .ok inner := by
  obtain ⟨hj, -⟩ := List.getElem?_eq_some_iff.mp h
  have hget : (if (item.slots.length : Int) ≤ j then
      .error (.breach (.slotOutOfRange j item.kind)) else Place.get item.slots j) = .ok inner := by
    rw [if_neg (by omega), Place.get_natCast h]
  cases item with
  | token t => exact nomatch h
  | sqrt | fraction | parentheses | power | call => exact hget

/-- Other rows can be put into an item, one for each slot. -/
theorem slots_withSlots {item : Item} {rows : List Row} (h : rows.length = item.slots.length) :
    (item.withSlots rows).slots = rows := by
  cases item with
  | token t => exact (List.length_eq_zero_iff.mp h).symm
  | sqrt | parentheses | power =>
    obtain ⟨row, rfl⟩ := List.length_eq_one_iff.mp h
    rfl
  | fraction =>
    obtain ⟨top, bottom, rfl⟩ := List.length_eq_two.mp h
    rfl
  | call => rfl

@[simp] theorem withSlots_slots (item : Item) : item.withSlots item.slots = item := by
  cases item <;> rfl

/-- Rows that are put into an item replace those that were put there before. -/
theorem withSlots_withSlots {item : Item} {rows others : List Row}
    (h : rows.length = item.slots.length) (hothers : others.length = item.slots.length) :
    (item.withSlots rows).withSlots others = item.withSlots others := by
  cases item with
  | token t => rfl
  | sqrt | parentheses | power =>
    obtain ⟨row, rfl⟩ := List.length_eq_one_iff.mp h
    obtain ⟨other, rfl⟩ := List.length_eq_one_iff.mp hothers
    rfl
  | fraction =>
    obtain ⟨top, bottom, rfl⟩ := List.length_eq_two.mp h
    obtain ⟨top', bottom', rfl⟩ := List.length_eq_two.mp hothers
    rfl
  | call => rfl

/-- A property of items that does not look into their rows. -/
def Outward (P : Item → Prop) : Prop :=
  ∀ (item : Item) (rows : List Row), rows.length = item.slots.length → P item →
    P (item.withSlots rows)

variable {P : Item → Prop} {item : Item} {inner : Row}

/-- A property that is true everywhere in an item and in a row is true everywhere when the row is
put into the item. -/
theorem Everywhere.withSlot (h : item.Everywhere P) (hP : Outward P) (hinner : inner.Everywhere P)
    (j : Nat) : (item.withSlots (item.slots.set j inner)).Everywhere P := by
  obtain ⟨here, hslots⟩ := everywhere_iff.mp h
  have hlength : (item.slots.set j inner).length = item.slots.length := List.length_set
  refine everywhere_iff.mpr ⟨hP _ _ hlength here, fun row hrow => ?_⟩
  rw [slots_withSlots hlength] at hrow
  rcases List.mem_or_eq_of_mem_set hrow with hrow | rfl
  · exact hslots row hrow
  · exact hinner

end Item

namespace Row.Everywhere

variable {P : Item → Prop} {row : Row} {item : Item}

/-- A property of all items of a row is kept when one of them is replaced by another that has it. -/
theorem set (h : row.Everywhere P) (hitem : item.Everywhere P) (i : Nat) :
    Row.Everywhere P (row.set i item) := by
  intro u hu
  rcases List.mem_or_eq_of_mem_set hu with hu | rfl
  · exact h u hu
  · exact hitem

/-- A property of all items of a row is kept when an item with it is inserted. -/
theorem insertIdx (h : row.Everywhere P) (hitem : item.Everywhere P) (i : Nat) :
    Row.Everywhere P (row.insertIdx i item) := by
  intro u hu
  rcases List.eq_or_mem_of_mem_insertIdx hu with rfl | hu
  · exact hitem
  · exact h u hu

/-- A property of all items of a row is kept when one of them is taken out. -/
theorem eraseIdx (h : row.Everywhere P) (i : Nat) : Row.Everywhere P (row.eraseIdx i) :=
  fun u hu => h u (List.mem_of_mem_eraseIdx hu)

end Row.Everywhere

/-! ## The focus -/

namespace Focus

/-- The indexes that lead to the row inside some frames. -/
def way : List Frame → Path
  | [] => []
  | frame :: frames => way frames ++ [frame.place, frame.slot]

/-- The path that leads to a focus. -/
def path (f : Focus) : Path := way f.frames ++ [f.place]

/-- The frames lead from the root to a row: each of them has its item in the row that the ones
around it lead to. -/
inductive Leads (root : Row) : List Frame → Row → Prop
  | start : Leads root [] root
  | inward {frames : List Frame} {row inner : Row} {item : Item} {index slot : Nat}
      (h : Leads root frames row) (hitem : row[index]? = some item)
      (hslot : item.slots[slot]? = some inner) :
      Leads root (⟨row, index, item, slot⟩ :: frames) inner

/-- The focus is at a place in a row that its frames lead to. -/
structure Stands (root : Row) (f : Focus) : Prop where
  leads : Leads root f.frames f.row
  nonneg : 0 ≤ f.place
  le_length : f.place ≤ f.row.length

variable {root row : Row} {frames : List Frame} {rest : Path} {f : Focus} {P : Item → Prop}

/-- Any place in a row that frames lead to can be stood at. -/
theorem Leads.stands (h : Leads root frames row) {place : Nat} (hplace : place ≤ row.length) :
    Stands root ⟨frames, row, place⟩ :=
  ⟨h, Int.natCast_nonneg _, Int.ofNat_le.mpr hplace⟩

/-- What stands in a row stands at one of the places that the row has. -/
theorem Stands.exists_place (h : f.Stands root) :
    ∃ (frames : List Frame) (row : Row) (place : Nat), f = ⟨frames, row, place⟩ ∧
      Leads root frames row ∧ place ≤ row.length := by
  obtain ⟨place, hplace⟩ := Int.eq_ofNat_of_zero_le h.nonneg
  have hle := h.le_length
  refine ⟨f.frames, f.row, place, ?_, h.leads, by omega⟩
  rw [← hplace]

/-- If the place is not the first one then there is an item before it. -/
theorem Stands.exists_behind (h : f.Stands root) (hplace : 0 < f.place) :
    ∃ (frames : List Frame) (row : Row) (k : Nat), f = ⟨frames, row, (k + 1 : Nat)⟩ ∧
      Leads root frames row ∧ k < row.length := by
  obtain ⟨frames, row, place, rfl, hleads, hle⟩ := h.exists_place
  obtain ⟨k, rfl⟩ := Nat.exists_eq_add_one.mpr (Int.natCast_pos.mp hplace)
  exact ⟨frames, row, k, rfl, hleads, hle⟩

/-- A path in a row goes on the way that leads to the row. -/
theorem Leads.addresses (h : Leads root frames row) (hrest : rest.Addresses row) :
    Path.Addresses root (way frames ++ rest) := by
  induction h generalizing rest with
  | start => exact hrest
  | inward _ hitem hslot ih =>
    rw [way, List.append_assoc]
    exact ih (.inside hitem hslot hrest)

theorem Stands.addresses (h : f.Stands root) : f.path.Addresses root := by
  obtain ⟨frames, row, place, rfl, hleads, hplace⟩ := h.exists_place
  exact hleads.addresses (.place hplace)

/-- A path that can be followed leads to a focus. -/
theorem exists_of_addresses (h : Path.Addresses root rest) :
    ∃ f : Focus, f.Stands root ∧ f.path = rest := by
  -- on the way, what is left of the path goes on from the row that the frames lead to
  have hfrom : ∀ {row : Row} {rest : Path}, Path.Addresses row rest → ∀ frames,
      Leads root frames row → ∃ f : Focus, f.Stands root ∧ f.path = way frames ++ rest := by
    intro row rest h
    induction h with
    | place hplace => exact fun frames hleads => ⟨_, hleads.stands hplace, rfl⟩
    | inside hitem hslot _ ih =>
      intro frames hleads
      obtain ⟨f, hf, hpath⟩ := ih _ (hleads.inward hitem hslot)
      exact ⟨f, hf, by rw [hpath, way, List.append_assoc]; rfl⟩
  exact hfrom h [] .start

/-- Following a path passes into the item that its first two steps name. -/
theorem follow_inward {item : Item} {inner : Row} {index slot : Nat}
    (hitem : row[index]? = some item) (hslot : item.slots[slot]? = some inner) (hrest : rest ≠ []) :
    follow frames row (index :: slot :: rest) =
      follow (⟨row, index, item, slot⟩ :: frames) inner rest := by
  obtain ⟨hindex, -⟩ := List.getElem?_eq_some_iff.mp hitem
  rw [follow, if_neg (by omega), Place.get_natCast hitem]
  simp only [ok_bind, List.isEmpty_iff, hrest, if_false, Item.slot_natCast hslot]

/-- Following the way of some frames gives the frames back. -/
theorem Leads.follow_way (h : Leads root frames row) (hrest : rest ≠ []) :
    follow [] root (way frames ++ rest) = follow frames row rest := by
  induction h generalizing rest with
  | start => rfl
  | inward _ hitem hslot ih =>
    rw [way, List.append_assoc]
    exact (ih (by simp)).trans (follow_inward hitem hslot hrest)

/-- The path of a focus leads back to it. -/
theorem Stands.ofPath_path (h : f.Stands root) : ofPath root f.path = .ok f := by
  rw [ofPath, path, h.leads.follow_way (by simp)]
  rfl

/-- There is one focus for each path, so two that have a path in common are the same. -/
theorem Stands.eq_of_path {g : Focus} (h : f.Stands root) (hg : g.Stands root)
    (hpath : f.path = g.path) : f = g := by
  have hfocus := h.ofPath_path
  rw [hpath, hg.ofPath_path] at hfocus
  exact (Except.ok.inj hfocus).symm

/-- The path to a focus is an outer one if and only if the focus is in the root. -/
theorem isOuter_path : f.path.isOuter = true ↔ f.frames = [] := by
  obtain ⟨frames, row, place⟩ := f
  cases frames <;> simp [Path.isOuter, path, way]

/-- The first of all places is at the front of the root. -/
theorem path_eq_start : f.path = [0] ↔ f.place = 0 ∧ f.frames = [] := by
  obtain ⟨frames, row, place⟩ := f
  cases frames with
  | nil => simp [path, way]
  | cons frame frames =>
    refine iff_of_false (fun h => ?_) (by simp)
    simpa [path, way] using congrArg List.length h

/-- What is true everywhere is true of the row that some frames lead to. -/
theorem Leads.everywhere (h : Leads root frames row) (hroot : root.Everywhere P) :
    row.Everywhere P := by
  induction h with
  | start => exact hroot
  | inward _ hitem hslot ih =>
    exact ih.inside (List.mem_of_getElem? hitem) (List.mem_of_getElem? hslot)

/-- What is true of all items is true of those in the row that some frames lead to. -/
theorem Leads.here (h : Leads root frames row) (hroot : root.Everywhere P) {item : Item} {i : Nat}
    (hitem : row[i]? = some item) : P item :=
  (Item.everywhere_iff.mp (h.everywhere hroot item (List.mem_of_getElem? hitem))).1

/-! ## Putting a row back -/

/-- Another row in the place of an inner one. -/
theorem refill_eq {item : Item} {inner other : Row} {index slot : Nat}
    (hitem : row[index]? = some item) (hslot : item.slots[slot]? = some inner) :
    refill other ⟨row, index, item, slot⟩ =
      .ok (row.set index (item.withSlots (item.slots.set slot other))) := by
  obtain ⟨hindex, -⟩ := List.getElem?_eq_some_iff.mp hitem
  obtain ⟨hj, -⟩ := List.getElem?_eq_some_iff.mp hslot
  rw [refill, Place.replace_natCast hj, ok_bind, Place.replace_natCast hindex]

/-- One whole becomes another one, and back, when one row takes the place of the other one at the end
of some frames. The same way leads to both rows. -/
structure Exchange (root : Row) (frames : List Frame) (row : Row) (whole : Row)
    (changed : List Frame) (other : Row) : Prop where
  leads : Leads whole changed other
  way_eq : way changed = way frames
  there : frames.foldlM refill other = .ok whole
  back : changed.foldlM refill row = .ok root

/-- With another row at the end of the frames there is another whole, in which what does not look
into rows remains true. -/
theorem Leads.rebuild (h : Leads root frames row) (hP : Item.Outward P) (hroot : root.Everywhere P)
    {other : Row} (hother : other.Everywhere P) :
    ∃ whole changed, whole.Everywhere P ∧ Exchange root frames row whole changed other := by
  induction h generalizing other with
  | start => exact ⟨other, [], hother, .start, rfl, rfl, rfl⟩
  | @inward frames row inner item index slot hleads hitem hslot ih =>
    obtain ⟨hindex, hget⟩ := List.getElem?_eq_some_iff.mp hitem
    obtain ⟨hj, hinner⟩ := List.getElem?_eq_some_iff.mp hslot
    have hrow := hleads.everywhere hroot
    -- the item with the other row inside, and the row around it with that item
    obtain ⟨renewed, hrenewed⟩ : ∃ u, u = item.withSlots (item.slots.set slot other) := ⟨_, rfl⟩
    have hslots : renewed.slots = item.slots.set slot other := by
      rw [hrenewed]
      exact Item.slots_withSlots List.length_set
    have hkept : renewed.Everywhere P :=
      hrenewed ▸ (hrow item (List.mem_of_getElem? hitem)).withSlot hP hother slot
    have hthere : (row.set index renewed)[index]? = some renewed := List.getElem?_set_self hindex
    have hinside : renewed.slots[slot]? = some other := by
      rw [hslots]
      exact List.getElem?_set_self hj
    -- the item and the row from before come back with the row inside
    have hitemBack : renewed.withSlots (renewed.slots.set slot inner) = item := by
      rw [hslots, List.set_set, ← hinner, List.set_getElem_self, hrenewed,
        Item.withSlots_withSlots List.length_set rfl, Item.withSlots_slots]
    have hrowBack : (row.set index renewed).set index item = row := by
      rw [List.set_set, ← hget, List.set_getElem_self]
    obtain ⟨whole, changed, hwhole, hchange⟩ := ih (hrow.set hkept index)
    refine ⟨whole, ⟨row.set index renewed, index, renewed, slot⟩ :: changed, hwhole,
      hchange.leads.inward hthere hinside, ?_, ?_, ?_⟩
    · rw [way, way, hchange.way_eq]
    · rw [List.foldlM_cons, refill_eq hitem hslot, ok_bind, ← hrenewed, hchange.there]
    · rw [List.foldlM_cons, refill_eq hthere hinside, ok_bind, hitemBack, hrowBack, hchange.back]

end Focus

/-- The row that a path leads to, and the place in it. -/
theorem Path.Addresses.exists_focus {root : Row} {p : Path} (h : p.Addresses root) :
    ∃ (frames : List Frame) (row : Row) (place : Nat), Focus.Leads root frames row ∧
      place ≤ row.length ∧ p = Focus.way frames ++ [(place : Int)] ∧
      Focus.ofPath root p = .ok ⟨frames, row, place⟩ := by
  obtain ⟨f, hf, hpath⟩ := Focus.exists_of_addresses h
  have hfocus := hf.ofPath_path
  obtain ⟨frames, row, place, rfl, hleads, hle⟩ := hf.exists_place
  exact ⟨frames, row, place, hleads, hle, hpath.symm, hpath ▸ hfocus⟩

end Mathpad
