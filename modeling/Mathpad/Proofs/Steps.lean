import Mathpad.Cursor.Move
import Mathpad.Proofs.Actions
import Mathpad.Proofs.Paths

/-!
# Steps to the right and to the left

A step to the right leads from a place to the next one (`Focus.Next`): over a token, into the
first row of another item, from the end of an argument to the start of the one behind it, or out
of an item. From every place but the last one there is such a step, if only every call has a row
to enter, and it comes nearer to the end: `Focus.ahead` counts the places that the cursor can
still come to on its way to the right, and every step leaves fewer of them.

A step to the left goes back to the place before, but it is not the same relation backwards. It
enters a fraction by its upper part only and leaves it from either part to the left, so that the
ends of the lower part are the places where the two differ.
-/
set_option autoImplicit false

namespace Mathpad

/-! ## What lies ahead -/

namespace Item

theorem places_eq (item : Item) : item.places = placesInArgs item.slots := by
  cases item <;> simp [places, placesInArgs, slots]

/-- The places behind an index are those of the item there, the one behind it and the rest. -/
theorem placesBehind_drop {row : Row} {i : Nat} {item : Item} (h : row[i]? = some item) :
    placesBehind (row.drop i) =
      placesInArgs item.slots + 1 + placesBehind (row.drop (i + 1)) := by
  obtain ⟨hi, rfl⟩ := List.getElem?_eq_some_iff.mp h
  rw [List.drop_eq_getElem_cons hi, placesBehind, places_eq]

/-- The places in the arguments from one on are those in it, the one at its end, and those in the
others. -/
theorem placesInArgs_drop {rows : List Row} {j : Nat} {row : Row} (h : rows[j]? = some row) :
    placesInArgs (rows.drop j) = placesBehind row + 1 + placesInArgs (rows.drop (j + 1)) := by
  obtain ⟨hj, rfl⟩ := List.getElem?_eq_some_iff.mp h
  rw [List.drop_eq_getElem_cons hj, placesInArgs]

/-- What is counted in a list is no more after some of it is dropped. -/
theorem drop_le_of_le_cons {α : Type} {count : List α → Nat}
    (h : ∀ x xs, count xs ≤ count (x :: xs)) (xs : List α) (i : Nat) :
    count (xs.drop i) ≤ count xs := by
  induction xs generalizing i with
  | nil => rw [List.drop_nil]
  | cons x xs ih =>
    cases i with
    | zero => rfl
    | succ i => exact (ih i).trans (h x xs)

theorem placesBehind_drop_le (row : Row) (i : Nat) :
    placesBehind (row.drop i) ≤ placesBehind row :=
  drop_le_of_le_cons (fun item row => by rw [placesBehind]; omega) row i

theorem placesInArgs_drop_le (rows : List Row) (j : Nat) :
    placesInArgs (rows.drop j) ≤ placesInArgs rows :=
  drop_le_of_le_cons (fun row rows => by rw [placesInArgs]; omega) rows j

end Item

open Item (placesBehind placesInArgs placesBehind_drop placesInArgs_drop)

/-- The places behind the item of a frame, and those in the slots behind the one that is entered. -/
def Frame.ahead (frame : Frame) : Nat :=
  placesBehind (frame.row.drop (frame.place.toNat + 1)) + 1 +
    placesInArgs (frame.item.slots.drop (frame.slot.toNat + 1))

namespace Focus

/-- The places behind the focus, all those in inner rows included. -/
def ahead (f : Focus) : Nat :=
  placesBehind (f.row.drop f.place.toNat) + (f.frames.map Frame.ahead).sum

variable {root row : Row} {frames : List Frame} {f : Focus}

/-- The places behind those frames lead past are places of the root. -/
theorem Leads.places_le (h : Leads root frames row) :
    placesBehind row + (frames.map Frame.ahead).sum ≤ placesBehind root := by
  induction h with
  | start => simp
  | @inward frames row inner item index slot _ hitem hslot ih =>
    have hbehind := placesBehind_drop hitem
    have hinside := placesInArgs_drop hslot
    have hrow := Item.placesBehind_drop_le row index
    have hslots := Item.placesInArgs_drop_le item.slots slot
    simp only [List.map_cons, List.sum_cons, Frame.ahead, Int.toNat_natCast]
    omega

/-- A path into a row of an item is one to the front of the item, and two more indexes. -/
theorem path_inward {inner : Row} {item : Item} {index slot place : Int} :
    path ⟨⟨row, index, item, slot⟩ :: frames, inner, place⟩ =
      ((way frames ++ [index]).push slot).push place := by
  simp [path, way, Path.push]

/-- No more lies ahead than there is. -/
theorem Stands.ahead_le (h : f.Stands root) : f.ahead ≤ placesBehind root := by
  have hplaces := h.leads.places_le
  have hrow := Item.placesBehind_drop_le f.row f.place.toNat
  unfold ahead
  omega

/-- A focus has fewer places behind it than there are. -/
theorem Stands.ahead_lt_places (h : f.Stands root) : f.ahead < root.places + 1 := by
  have hahead := h.ahead_le
  rw [Row.places]
  omega

/-! ### Each step to the right leaves less -/

section Ahead

variable {inner next : Row} {item : Item} {index slot place : Nat}

/-- Past an item, or past its start. -/
theorem ahead_succ_lt (hitem : row[place]? = some item) :
    ahead ⟨frames, row, (place + 1 : Nat)⟩ < ahead ⟨frames, row, place⟩ := by
  simp only [ahead, Int.toNat_natCast, placesBehind_drop hitem]
  omega

/-- Into the first row of an item. -/
theorem ahead_enter_lt (hitem : row[place]? = some item) (hslot : item.slots[0]? = some inner) :
    ahead ⟨⟨row, place, item, (0 : Nat)⟩ :: frames, inner, (0 : Nat)⟩ <
      ahead ⟨frames, row, place⟩ := by
  have hinside := placesInArgs_drop hslot
  rw [List.drop_zero] at hinside
  simp only [ahead, Frame.ahead, List.map_cons, List.sum_cons, Int.toNat_natCast,
    placesBehind_drop hitem, List.drop_zero]
  omega

/-- From one row of an item to the next one. -/
theorem ahead_next_lt (hslot : item.slots[slot + 1]? = some next) :
    ahead ⟨⟨row, index, item, (slot + 1 : Nat)⟩ :: frames, next, (0 : Nat)⟩ <
      ahead ⟨⟨row, index, item, slot⟩ :: frames, inner, place⟩ := by
  have hinside := placesInArgs_drop hslot
  simp only [ahead, Frame.ahead, List.map_cons, List.sum_cons, Int.toNat_natCast, List.drop_zero]
  omega

/-- Out of an item. -/
theorem ahead_leave_lt :
    ahead ⟨frames, row, (index + 1 : Nat)⟩ <
      ahead ⟨⟨row, index, item, slot⟩ :: frames, inner, place⟩ := by
  simp only [ahead, Frame.ahead, List.map_cons, List.sum_cons, Int.toNat_natCast]
  omega

end Ahead

end Focus

/-! ## Steps -/

/-- The cursor can enter the item, unless it is a token: there is a row in it. -/
def Item.OpenHere : Item → Prop
  | token _ => True
  | item => item.slots ≠ []

/-- An item that can be entered, and is no token, has a first row. -/
theorem Item.OpenHere.first_slot {item : Item} (h : item.OpenHere) (hne : ∀ t, item ≠ .token t) :
    ∃ inner, item.slots[0]? = some inner := by
  have hslots : item.slots ≠ [] := by
    cases item with
    | token t => exact absurd rfl (hne t)
    | sqrt | fraction | parentheses | power | call => exact h
  exact ⟨_, List.getElem?_eq_getElem (List.length_pos_iff.mpr hslots)⟩

/-- The row that is entered from the right: the last one of a call, and the first one of any other
item. -/
theorem Item.OpenHere.last_slot {item : Item} (h : item.OpenHere) (hne : ∀ t, item ≠ .token t) :
    ∃ slot inner, item.slots[slot]? = some inner ∧
      (∀ fn args, item = .call fn args → args.length = slot + 1) ∧
      ((∀ fn args, item ≠ .call fn args) → slot = 0) := by
  by_cases hcall : ∃ fn args, item = .call fn args
  · obtain ⟨fn, args, rfl⟩ := hcall
    have hcount : 0 < args.length := List.length_pos_iff.mpr h
    refine ⟨args.length - 1, _, List.getElem?_eq_getElem (Nat.sub_one_lt_of_lt hcount), ?_, ?_⟩
    · rintro _ _ ⟨⟩
      omega
    · exact fun hne => absurd rfl (hne fn args)
  · obtain ⟨inner, hslot⟩ := h.first_slot hne
    exact ⟨0, inner, hslot, fun fn args h => absurd ⟨fn, args, h⟩ hcall, fun _ => rfl⟩

/-- From a row of an item the cursor goes on to the next argument of a call, if there is one. -/
theorem Item.next_argument_or_last {item : Item} {slot : Nat} {inner : Row}
    (hslot : item.slots[slot]? = some inner) :
    (∃ fn args next, item = .call fn args ∧ args[slot + 1]? = some next) ∨
      ∀ fn args, item = .call fn args → args.length = slot + 1 := by
  refine or_iff_not_imp_left.mpr fun hnext fn args hcall => ?_
  obtain rfl := hcall
  obtain ⟨hlt, -⟩ := List.getElem?_eq_some_iff.mp hslot
  have hlength : slot < args.length := hlt
  by_contra hcount
  exact hnext ⟨fn, args, _, rfl, List.getElem?_eq_getElem (by omega)⟩

namespace Cursor

open Focus (way Leads)

variable {root row : Row} {frames : List Frame} {item : Item} {index slot place : Nat} {f : Focus}

theorem pop_two (p : Path) (i j : Int) : (p ++ [i, j]).pop 2 = p := Path.pop_append p [i, j]

/-- The end of a path in an inner row: the last index, the slot and the index of the item. -/
theorem pop_inward (p : Path) (i j k : Int) : (p ++ [i, j] ++ [k]).pop 2 = p ++ [i] := by
  rw [show p ++ [i, j] ++ [k] = (p ++ [i]) ++ [j, k] by simp, pop_two]

/-- Shifting the last step of a path changes that step only. -/
theorem shift_ensures {p : Path} {i n : Int} {Q : Unit → Path → Prop} {E : Fault → Path → Prop}
    (h : 0 ≤ i + n) (hQ : Q () (p ++ [i + n])) : Ensures (shift n) (p ++ [i]) Q E := by
  refine ensures_get ?_
  rw [Path.shift_append p h]
  exact hQ

/-- Leaving an item goes to the place behind it. -/
theorem leave_ensures {p : Path} {i : Nat} {j k : Int} {Q : Unit → Path → Prop}
    {E : Fault → Path → Prop} (hQ : Q () (p ++ [((i + 1 : Nat) : Int)])) :
    Ensures leave (p ++ [(i : Int), j] ++ [k]) Q E := by
  have hpop := pop_inward p i j k
  show Ensures (shift 1) ((p ++ [(i : Int), j] ++ [k]).pop 2) Q E
  rw [hpop]
  exact shift_ensures (by omega) hQ

/-! ### To the right -/

section Right

variable {inner next : Row} {fn : NamedFunction} {args : List Row} {t : Token}
  {Q : Unit → Path → Prop} {E : Fault → Path → Prop}

/-- Over a token. -/
theorem right_token (h : Leads root frames row) (hitem : row[place]? = some (.token t))
    (hQ : Q () (Focus.path ⟨frames, row, (place + 1 : Nat)⟩)) :
    Ensures (right root) (Focus.path ⟨frames, row, place⟩) Q E := by
  obtain ⟨hplace, -⟩ := List.getElem?_eq_some_iff.mp hitem
  refine ensures_get (ensures_lift_ok (h.stands hplace.le).ofPath_path ?_)
  dsimp only
  rw [if_neg (by omega)]
  exact ensures_lift_ok (Place.get_natCast hitem)
    (shift_ensures (show (0 : Int) ≤ place + 1 by omega) hQ)

/-- Into an item, without a look at what is in it. -/
theorem right_enter (h : Leads root frames row) (hitem : row[place]? = some item)
    (hne : ∀ t, item ≠ .token t)
    (hQ : Q () (((Focus.path ⟨frames, row, place⟩).push 0).push 0)) :
    Ensures (right root) (Focus.path ⟨frames, row, place⟩) Q E := by
  obtain ⟨hplace, -⟩ := List.getElem?_eq_some_iff.mp hitem
  refine ensures_get (ensures_lift_ok (h.stands hplace.le).ofPath_path ?_)
  dsimp only
  rw [if_neg (by omega)]
  refine ensures_lift_ok (Place.get_natCast hitem) ?_
  cases item with
  | token t => exact absurd rfl (hne t)
  | sqrt | fraction | parentheses | power | call => exact hQ

/-- In a call without arguments there is nowhere to be. -/
theorem right_nowhere (h : Leads root frames row) (hitem : row[place]? = some (.call fn []))
    (hE : E (.breach (.slotOutOfRange 0 (Item.call fn []).kind))
      (((Focus.path ⟨frames, row, place⟩).push 0).push 0)) :
    Ensures (right root) (((Focus.path ⟨frames, row, place⟩).push 0).push 0) Q E := by
  obtain ⟨hplace, -⟩ := List.getElem?_eq_some_iff.mp hitem
  have hpath : ((Focus.path ⟨frames, row, place⟩).push 0).push 0 =
      way frames ++ [(place : Int), 0, 0] := by simp [Focus.path, Path.push]
  refine ensures_get (ensures_lift_error ?_ hE)
  rw [Focus.ofPath, hpath, h.follow_way (by simp), Focus.follow, if_neg (by omega),
    Place.get_natCast hitem]
  rfl

/-- From the end of an argument to the next one. -/
theorem right_next (h : Leads root frames row) (hitem : row[index]? = some (.call fn args))
    (hslot : args[slot]? = some inner) (hnext : args[slot + 1]? = some next)
    (hQ : Q () (Focus.path ⟨⟨row, index, .call fn args, (slot + 1 : Nat)⟩ :: frames, next,
      (0 : Nat)⟩)) :
    Ensures (right root)
      (Focus.path ⟨⟨row, index, .call fn args, slot⟩ :: frames, inner, inner.length⟩) Q E := by
  obtain ⟨hcount, -⟩ := List.getElem?_eq_some_iff.mp hnext
  have hstands := (h.inward hitem hslot).stands (le_refl inner.length)
  refine ensures_get (ensures_lift_ok hstands.ofPath_path ?_)
  dsimp only
  rw [if_pos rfl, if_pos (by omega)]
  have hpop : (Focus.path ⟨⟨row, index, .call fn args, slot⟩ :: frames, inner, inner.length⟩).pop 2 =
      way frames ++ [(index : Int)] := pop_inward _ _ _ _
  rw [Focus.path_inward, ← hpop] at hQ
  exact hQ

/-- Out of an item, unless there is an argument to go on with. -/
theorem right_leave (h : Leads root frames row) (hitem : row[index]? = some item)
    (hslot : item.slots[slot]? = some inner)
    (hlast : ∀ fn args, item = .call fn args → args.length = slot + 1)
    (hQ : Q () (Focus.path ⟨frames, row, (index + 1 : Nat)⟩)) :
    Ensures (right root)
      (Focus.path ⟨⟨row, index, item, slot⟩ :: frames, inner, inner.length⟩) Q E := by
  have hstands := (h.inward hitem hslot).stands (le_refl inner.length)
  have hleave : Ensures leave
      (Focus.path ⟨⟨row, index, item, slot⟩ :: frames, inner, inner.length⟩) Q E :=
    leave_ensures hQ
  refine ensures_get (ensures_lift_ok hstands.ofPath_path ?_)
  dsimp only
  rw [if_pos rfl]
  cases item with
  | call fn args =>
    have hcount := hlast fn args rfl
    dsimp only
    rw [if_neg (by omega)]
    exact hleave
  | token | sqrt | fraction | parentheses | power => exact hleave

end Right

/-! ### To the left -/

/-- The path leads to a place in the root. -/
def LeadsTo (root : Row) (p : Path) : Prop := ∃ g : Focus, g.Stands root ∧ g.path = p

section Left

variable {inner previous : Row} {fn : NamedFunction} {args : List Row} {t : Token}
  {Q : Unit → Path → Prop} {E : Fault → Path → Prop}

/-- Behind an item the cursor first goes in front of it. -/
theorem left_behind (h : Leads root frames row) (hitem : row[place]? = some item)
    (henter : Ensures (enterFromRight item) (Focus.path ⟨frames, row, place⟩) Q E) :
    Ensures (left root) (Focus.path ⟨frames, row, (place + 1 : Nat)⟩) Q E := by
  obtain ⟨hplace, -⟩ := List.getElem?_eq_some_iff.mp hitem
  have hprevious : ((place + 1 : Nat) : Int) - 1 = place := by omega
  have hback : ((place + 1 : Nat) : Int) + -1 = place := by omega
  refine ensures_get (ensures_lift_ok (h.stands hplace).ofPath_path ?_)
  dsimp only
  rw [if_neg (by omega), hprevious]
  -- the cursor is in front of the item before it looks whether it can be entered
  refine Ensures.bind (P := fun _ p => p = Focus.path ⟨frames, row, place⟩) ?_ ?_
  · refine shift_ensures (show (0 : Int) ≤ (place + 1 : Nat) + -1 by omega) ?_
    rw [hback]
    rfl
  · rintro _ p rfl
    exact ensures_lift_ok (Place.get_natCast hitem) henter

/-- Over a token. -/
theorem left_token (h : Leads root frames row) (hitem : row[place]? = some (.token t))
    (hQ : Q () (Focus.path ⟨frames, row, place⟩)) :
    Ensures (left root) (Focus.path ⟨frames, row, (place + 1 : Nat)⟩) Q E :=
  left_behind h hitem hQ

/-- Into an item, at the end of its first row; but into a call at the end of the last argument. -/
theorem left_enter (h : Leads root frames row) (hitem : row[place]? = some item)
    (hslot : item.slots[slot]? = some inner)
    (hcall : ∀ fn args, item = .call fn args → args.length = slot + 1)
    (hother : (∀ fn args, item ≠ .call fn args) → slot = 0)
    (hQ : Q () (Focus.path ⟨⟨row, place, item, slot⟩ :: frames, inner, inner.length⟩)) :
    Ensures (left root) (Focus.path ⟨frames, row, (place + 1 : Nat)⟩) Q E := by
  refine left_behind h hitem ?_
  rw [Focus.path_inward] at hQ
  have hfirst : (∀ fn args, item ≠ .call fn args) → Ensures (do
      let first ← liftM (Place.get item.slots 0)
      modify fun p => (p.push 0).push first.length) (Focus.path ⟨frames, row, place⟩) Q E := by
    intro hne
    obtain rfl := hother hne
    exact ensures_lift_ok (Place.get_natCast hslot) hQ
  cases item with
  | token t => exact nomatch hslot
  | call fn args =>
    have hcount := hcall fn args rfl
    have hpush : ((args.length : Int) - 1) = slot := by omega
    refine Ensures.bind (P := fun _ p => p = (Focus.path ⟨frames, row, place⟩).push slot) ?_ ?_
    · exact congrArg _ hpush
    · rintro _ p rfl
      exact ensures_lift_ok (Place.get_last hslot hcount) hQ
  | sqrt | fraction | parentheses | power => exact hfirst (by rintro fn args ⟨⟩)

/-- From the start of an argument to the one before it. -/
theorem left_previous (h : Leads root frames row) (hitem : row[index]? = some (.call fn args))
    (hslot : args[slot + 1]? = some inner) (hprevious : args[slot]? = some previous)
    (hQ : Q () (Focus.path ⟨⟨row, index, .call fn args, slot⟩ :: frames, previous,
      previous.length⟩)) :
    Ensures (left root) (Focus.path ⟨⟨row, index, .call fn args, (slot + 1 : Nat)⟩ :: frames, inner,
      (0 : Nat)⟩) Q E := by
  have hstands := (h.inward hitem hslot).stands (Nat.zero_le inner.length)
  have hback : ((slot + 1 : Nat) : Int) - 1 = slot := by omega
  refine ensures_get (ensures_lift_ok hstands.ofPath_path ?_)
  dsimp only
  rw [if_pos (show ((0 : Nat) : Int) = 0 from rfl), if_pos (by omega), hback]
  refine ensures_lift_ok (Place.get_natCast hprevious) ?_
  have hpop : (Focus.path ⟨⟨row, index, .call fn args, (slot + 1 : Nat)⟩ :: frames, inner,
      (0 : Nat)⟩).pop 2 = way frames ++ [(index : Int)] := pop_inward _ _ _ _
  rw [Focus.path_inward, ← hpop] at hQ
  exact hQ

/-- Out of an item, unless there is an argument to go back to. -/
theorem left_leave (h : Leads root frames row) (hitem : row[index]? = some item)
    (hslot : item.slots[slot]? = some inner) (hfirst : ∀ fn args, item = .call fn args → slot = 0)
    (hQ : Q () (Focus.path ⟨frames, row, index⟩)) :
    Ensures (left root) (Focus.path ⟨⟨row, index, item, slot⟩ :: frames, inner, (0 : Nat)⟩) Q E := by
  have hstands := (h.inward hitem hslot).stands (Nat.zero_le inner.length)
  have hpop : (Focus.path ⟨⟨row, index, item, slot⟩ :: frames, inner, (0 : Nat)⟩).pop 2 =
      Focus.path ⟨frames, row, index⟩ := pop_inward _ _ _ _
  rw [← hpop] at hQ
  refine ensures_get (ensures_lift_ok hstands.ofPath_path ?_)
  dsimp only
  rw [if_pos (show ((0 : Nat) : Int) = 0 from rfl)]
  cases item with
  | call fn args =>
    obtain rfl := hfirst fn args rfl
    exact hQ
  | token | sqrt | fraction | parentheses | power => exact hQ

end Left

end Cursor

/-! ### From one place to the next -/

namespace Focus

/-- One step to the right leads from the one place to the other: over a token, into the first row
of another item, from the end of an argument to the start of the one behind it, or out of an item
that has no argument to go on with. -/
inductive Next : Focus → Focus → Prop
  | past {frames : List Frame} {row : Row} {place : Nat} {t : Token}
      (hitem : row[place]? = some (.token t)) :
      Next ⟨frames, row, place⟩ ⟨frames, row, (place + 1 : Nat)⟩
  | into {frames : List Frame} {row inner : Row} {place : Nat} {item : Item}
      (hitem : row[place]? = some item) (hslot : item.slots[0]? = some inner) :
      Next ⟨frames, row, place⟩ ⟨⟨row, place, item, (0 : Nat)⟩ :: frames, inner, (0 : Nat)⟩
  | across {frames : List Frame} {row inner next : Row} {index slot : Nat} {fn : NamedFunction}
      {args : List Row} (hnext : args[slot + 1]? = some next) :
      Next ⟨⟨row, index, .call fn args, slot⟩ :: frames, inner, inner.length⟩
        ⟨⟨row, index, .call fn args, (slot + 1 : Nat)⟩ :: frames, next, (0 : Nat)⟩
  | outOf {frames : List Frame} {row inner : Row} {index slot : Nat} {item : Item}
      (hlast : ∀ fn args, item = .call fn args → args.length = slot + 1) :
      Next ⟨⟨row, index, item, slot⟩ :: frames, inner, inner.length⟩
        ⟨frames, row, (index + 1 : Nat)⟩

/-- The focus is in the lower part of a fraction. -/
def InLower (f : Focus) : Prop :=
  match f.frames with
  | ⟨_, _, .fraction .., slot⟩ :: _ => slot = 1
  | _ => False

variable {root row inner : Row} {frames : List Frame} {item : Item} {index slot : Nat}
  {f g : Focus}

/-- Frames lead to a row if the outer ones lead to the row with the item in it. -/
theorem Leads.outward (h : Leads root (⟨row, index, item, slot⟩ :: frames) inner) :
    Leads root frames row ∧ row[index]? = some item ∧ item.slots[slot]? = some inner := by
  generalize hindex : (index : Int) = i at h
  generalize hslot : (slot : Int) = j at h
  cases h with
  | inward houter hitem hinner =>
    obtain rfl := Int.ofNat_inj.mp hindex
    obtain rfl := Int.ofNat_inj.mp hslot
    exact ⟨houter, hitem, hinner⟩

/-- A step to the right leads from a place to a place. -/
theorem Next.stands (hnext : f.Next g) (h : f.Stands root) : g.Stands root := by
  cases hnext with
  | past hitem => exact h.leads.stands (List.getElem?_eq_some_iff.mp hitem).1
  | into hitem hslot => exact (h.leads.inward hitem hslot).stands (Nat.zero_le _)
  | across hnext =>
    obtain ⟨houter, hitem, -⟩ := h.leads.outward
    exact (houter.inward hitem hnext).stands (Nat.zero_le _)
  | outOf =>
    obtain ⟨houter, hitem, -⟩ := h.leads.outward
    exact houter.stands (List.getElem?_eq_some_iff.mp hitem).1

/-- With each step to the right fewer places are ahead, so there is an end to them. -/
theorem Next.ahead_lt (hnext : f.Next g) : g.ahead < f.ahead := by
  cases hnext with
  | past hitem => exact ahead_succ_lt hitem
  | into hitem hslot => exact ahead_enter_lt hitem hslot
  | across hnext => exact ahead_next_lt hnext
  | outOf => exact ahead_leave_lt

/-- A step to the right changes the path. -/
theorem Next.path_ne (hnext : f.Next g) (h : f.Stands root) : g.path ≠ f.path := by
  intro hpath
  have hless := hnext.ahead_lt
  rw [(hnext.stands h).eq_of_path h hpath] at hless
  exact lt_irrefl _ hless

/-- The cursor goes on to the next place. -/
theorem Next.right (hnext : f.Next g) (h : f.Stands root) :
    Ensures (Cursor.right root) f.path (fun _ p => p = g.path) fun _ _ => False := by
  cases hnext with
  | past hitem => exact Cursor.right_token h.leads hitem rfl
  | @into _ _ _ _ item hitem hslot =>
    have hne : ∀ t, item ≠ .token t := by
      rintro t rfl
      cases hslot
    exact Cursor.right_enter h.leads hitem hne path_inward.symm
  | across hnext =>
    obtain ⟨houter, hitem, hslot⟩ := h.leads.outward
    exact Cursor.right_next houter hitem hslot hnext rfl
  | outOf hlast =>
    obtain ⟨houter, hitem, hslot⟩ := h.leads.outward
    exact Cursor.right_leave houter hitem hslot hlast rfl

/-- The cursor goes back from the next place, unless it has left the lower part of a fraction. -/
theorem Next.left (hnext : f.Next g) (h : f.Stands root)
    (hlower : ¬(f.place = f.row.length ∧ f.InLower)) :
    Ensures (Cursor.left root) g.path (fun _ p => p = f.path) fun _ _ => False := by
  cases hnext with
  | past hitem => exact Cursor.left_token h.leads hitem rfl
  | into hitem hslot => exact Cursor.left_leave h.leads hitem hslot (fun _ _ _ => rfl) rfl
  | across hnext =>
    obtain ⟨houter, hitem, hslot⟩ := h.leads.outward
    exact Cursor.left_previous houter hitem hnext hslot rfl
  | @outOf _ _ _ _ slot item hlast =>
    obtain ⟨houter, hitem, hslot⟩ := h.leads.outward
    refine Cursor.left_enter houter hitem hslot hlast (fun hcall => ?_) rfl
    -- only a fraction has a slot behind the first one, and that is its lower part
    obtain ⟨hlt, -⟩ := List.getElem?_eq_some_iff.mp hslot
    cases item with
    | token t => cases hslot
    | call fn args => exact absurd rfl (hcall fn args)
    | fraction top bottom =>
      have hlt : slot < 2 := hlt
      have hne : slot ≠ 1 := fun h => hlower ⟨rfl, congrArg Nat.cast h⟩
      omega
    | sqrt | parentheses | power => exact Nat.lt_one_iff.mp hlt

/-- From every place but the last one there is a step to the right. -/
theorem Stands.exists_next (h : f.Stands root) (hroot : root.Everywhere Item.OpenHere)
    (hend : ¬(f.place = f.row.length ∧ f.frames = [])) : ∃ g, f.Next g := by
  obtain ⟨frames, row, place, rfl, hleads, hplace⟩ := h.exists_place
  rcases hplace.lt_or_eq with hplace | rfl
  · -- in front of an item
    have hitem : row[place]? = some row[place] := List.getElem?_eq_getElem hplace
    have hopen := hleads.here hroot hitem
    generalize row[place] = item at hitem hopen
    by_cases htoken : ∃ t, item = .token t
    · obtain ⟨t, rfl⟩ := htoken
      exact ⟨_, .past hitem⟩
    · obtain ⟨inner, hslot⟩ := hopen.first_slot fun t ht => htoken ⟨t, ht⟩
      exact ⟨_, .into hitem hslot⟩
  · -- at the end of a row
    cases hleads with
    | start => exact absurd ⟨rfl, rfl⟩ hend
    | @inward frames outer _ item index slot houter hitem hslot =>
      rcases Item.next_argument_or_last hslot with ⟨fn, args, next, rfl, hnext⟩ | hlast
      · exact ⟨_, .across hnext⟩
      · exact ⟨_, .outOf hlast⟩

/-- To every place but the first one of all, and the first one in the lower part of a fraction,
there is a step to the right. It does not leave such a lower part. -/
theorem Stands.exists_previous (h : g.Stands root) (hroot : root.Everywhere Item.OpenHere)
    (hstart : ¬(g.place = 0 ∧ (g.frames = [] ∨ g.InLower))) :
    ∃ f : Focus, f.Stands root ∧ f.Next g ∧ ¬(f.place = f.row.length ∧ f.InLower) := by
  obtain ⟨frames, row, place, rfl, hleads, hplace⟩ := h.exists_place
  cases place with
  | succ place =>
    -- behind an item
    have hitem : row[place]? = some row[place] := List.getElem?_eq_getElem hplace
    have hopen := hleads.here hroot hitem
    generalize row[place] = item at hitem hopen
    by_cases htoken : ∃ t, item = .token t
    · obtain ⟨t, rfl⟩ := htoken
      refine ⟨_, hleads.stands (Nat.le_of_succ_le hplace), .past hitem, fun hend => ?_⟩
      exact absurd (Int.ofNat_inj.mp hend.1) (Nat.ne_of_lt hplace)
    · obtain ⟨slot, inner, hslot, hcall, hother⟩ := hopen.last_slot fun t ht => htoken ⟨t, ht⟩
      refine ⟨_, (hleads.inward hitem hslot).stands le_rfl, .outOf hcall, fun hend => ?_⟩
      have hlower := hend.2
      cases item with
      | fraction =>
        obtain rfl := hother (by rintro fn args ⟨⟩)
        cases hlower
      | token | sqrt | parentheses | power | call => exact hlower
  | zero =>
    cases hleads with
    | start => exact absurd ⟨rfl, .inl rfl⟩ hstart
    | @inward frames outer _ item index slot houter hitem hslot =>
      obtain ⟨hindex, -⟩ := List.getElem?_eq_some_iff.mp hitem
      obtain ⟨hlt, -⟩ := List.getElem?_eq_some_iff.mp hslot
      by_cases hprevious : ∃ fn args k, item = .call fn args ∧ slot = k + 1
      · obtain ⟨fn, args, k, rfl, rfl⟩ := hprevious
        have hk : (Item.call fn args).slots[k]? = some (Item.call fn args).slots[k] :=
          List.getElem?_eq_getElem (Nat.lt_of_succ_lt hlt)
        exact ⟨_, (houter.inward hitem hk).stands le_rfl, .across hslot, fun hend => hend.2⟩
      · obtain rfl : slot = 0 := by
          cases item with
          | token t => cases hslot
          | call fn args =>
            by_contra hne
            exact hprevious ⟨fn, args, slot - 1, rfl, by omega⟩
          | fraction top bottom =>
            have hlt : slot < 2 := hlt
            have hne : slot ≠ 1 := fun h => hstart ⟨rfl, .inr (congrArg Nat.cast h)⟩
            omega
          | sqrt | parentheses | power => exact Nat.lt_one_iff.mp hlt
        refine ⟨_, houter.stands hindex.le, .into hitem hslot, fun hend => ?_⟩
        exact absurd (Int.ofNat_inj.mp hend.1) (Nat.ne_of_lt hindex)

end Focus

namespace Cursor

variable {root : Row} {f : Focus}

/-- A step to the right leads to another place, and in an inner row it leaves less ahead. -/
theorem right_ensures (h : f.Stands root) (hroot : root.Everywhere Item.OpenHere) :
    Ensures (right root) f.path
      (fun _ p => ∃ g : Focus, g.Stands root ∧ g.path = p ∧ (f.frames ≠ [] → g.ahead < f.ahead))
      fun _ _ => False := by
  by_cases hend : f.place = f.row.length ∧ f.frames = []
  · refine ensures_get (ensures_lift_ok h.ofPath_path ?_)
    obtain ⟨frames, row, place⟩ := f
    obtain ⟨hplace, rfl⟩ : place = row.length ∧ frames = [] := hend
    rw [if_pos hplace]
    exact ⟨_, h, rfl, fun hne => absurd rfl hne⟩
  · obtain ⟨g, hnext⟩ := h.exists_next hroot hend
    refine (hnext.right h).imp ?_
    rintro _ _ rfl
    exact ⟨g, hnext.stands h, rfl, fun _ => hnext.ahead_lt⟩

/-- A step to the left leads to another place. -/
theorem left_ensures (h : f.Stands root) (hroot : root.Everywhere Item.OpenHere) :
    Ensures (left root) f.path (fun _ p => LeadsTo root p) fun _ _ => False := by
  by_cases hstart : f.place = 0 ∧ (f.frames = [] ∨ f.InLower)
  · obtain ⟨frames, row, place, rfl, hleads, -⟩ := h.exists_place
    obtain ⟨hplace, houter | hlower⟩ := hstart
    · refine ensures_get (ensures_lift_ok h.ofPath_path ?_)
      obtain rfl : frames = [] := houter
      rw [if_pos hplace]
      exact ⟨_, h, rfl⟩
    · obtain rfl : place = 0 := Int.ofNat_inj.mp hplace
      cases hleads with
      | start => exact hlower.elim
      | @inward frames outer _ item index slot houter hitem hslot =>
        obtain ⟨hindex, -⟩ := List.getElem?_eq_some_iff.mp hitem
        refine left_leave houter hitem hslot ?_ ⟨_, houter.stands hindex.le, rfl⟩
        rintro fn args rfl
        exact hlower.elim
  · obtain ⟨g, hg, hnext, hlower⟩ := h.exists_previous hroot hstart
    exact (hnext.left hg hlower).imp fun _ _ hp => ⟨g, hg, hp.symm⟩

end Cursor
end Mathpad
