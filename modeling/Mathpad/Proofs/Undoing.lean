import Mathpad.Proofs.Deletion

/-!
# What undoes a step, and what undoes an insertion

A step to the right and one to the left undo each other, but at the two ends of the lower part of a
fraction (`Session.moves_undone`): the cursor leaves it to either side, and enters the fraction by the
upper part from either side.

Deleting undoes the insertion of an item that is just created. The cursor is then behind a token, or
in the first row of any other item. All rows of such an item are empty, so the way to the right leads
through them and out of the item, where it is the item before the cursor (`Session.insert_undone`).
-/
set_option autoImplicit false

namespace Mathpad

/-! ## Items that are just created -/

/-- An item as it is created: a token, or one with nothing in its rows. A call has a row for each
argument that its function takes. -/
inductive Item.Fresh : Item → Prop
  | token (t : Token) : Fresh (.token t)
  | sqrt : Fresh (.sqrt [])
  | fraction : Fresh (.fraction [] [])
  | parentheses : Fresh (.parentheses [])
  | power : Fresh (.power [])
  | call (fn : NamedFunction) : Fresh (.emptyCall fn)

namespace Item.Fresh

variable {item : Item} {inner : Row}

/-- The cursor can enter a fresh item, unless it is a token. -/
theorem openHere (h : item.Fresh) : item.OpenHere := by
  cases h with
  | token t => trivial
  | call fn => exact KeyedHere.openHere _ (List.length_replicate ..)
  | sqrt | fraction | parentheses | power => exact List.cons_ne_nil _ _

theorem slot_eq_nil (h : item.Fresh) (hinner : inner ∈ item.slots) : inner = [] := by
  cases h with
  | token t => exact nomatch hinner
  | call fn => exact List.eq_of_mem_replicate hinner
  | sqrt | parentheses | power => exact List.mem_singleton.mp hinner
  | fraction =>
    rcases List.mem_pair.mp hinner with rfl | rfl
    · rfl
    · rfl

end Item.Fresh

namespace Focus

variable {root row : Row} {frames : List Frame} {item : Item} {index slot : Nat} {f g : Focus}

/-- In an item with nothing in its rows the cursor comes out of the item, and deletes it. -/
theorem deletedFrom_slot (hempty : ∀ inner ∈ item.slots, inner = [])
    (hslot : item.slots[slot]? = some []) :
    DeletedFrom ⟨frames, row, (index + 1 : Nat)⟩
      ⟨⟨row, index, item, slot⟩ :: frames, [], (0 : Nat)⟩ := by
  -- by induction on the rows behind this one
  induction hn : item.slots.length - slot using Nat.strong_induction_on generalizing slot with
  | _ n ih =>
  rcases Item.next_argument_or_last hslot with ⟨fn, args, next, rfl, hnext⟩ | hlast
  · obtain ⟨hlt, -⟩ := List.getElem?_eq_some_iff.mp hnext
    have hless : args.length - (slot + 1) < n := by
      rw [← hn, Item.slots]
      omega
    obtain rfl : next = [] := hempty next (List.mem_of_getElem? hnext)
    exact .right rfl (List.cons_ne_nil _ _) (.across hnext) (ih _ hless hnext rfl)
  · exact .right rfl (List.cons_ne_nil _ _) (.outOf hlast) (.here (Int.natCast_pos.mpr index.succ_pos))

/-- The step that the cursor takes when a new item is inserted leads to where the item is deleted. -/
theorem Next.deletedFrom {place : Nat} (hitem : item.Fresh) (hthere : row[place]? = some item)
    (hnext : Next ⟨frames, row, place⟩ g) : DeletedFrom ⟨frames, row, (place + 1 : Nat)⟩ g := by
  obtain ⟨hlt, -⟩ := List.getElem?_eq_some_iff.mp hthere
  generalize hplace : (place : Int) = i at hnext
  cases hnext with
  | past =>
    obtain rfl := Int.ofNat_inj.mp hplace
    exact .here (Int.natCast_pos.mpr place.succ_pos)
  | into hsame hslot =>
    obtain rfl := Int.ofNat_inj.mp hplace
    obtain rfl := Option.some.inj (hthere.symm.trans hsame)
    obtain rfl := hitem.slot_eq_nil (List.mem_of_getElem? hslot)
    exact deletedFrom_slot (fun _ => hitem.slot_eq_nil) hslot
  | across | outOf => exact absurd (Int.ofNat_inj.mp hplace) hlt.ne

end Focus

namespace Session

variable {s : Session} {f g : Focus}

/-! ## Steps -/

/-- The cursor goes back from the next place. -/
theorem moveLeft_next (hs : s.viewport = none) (hf : f.Stands s.root) (hnext : f.Next g)
    (hlower : ¬(f.place = f.row.length ∧ f.InLower)) (hpath : s.path = g.path) :
    Ensures moveLeft s (fun _ t => t = { s with path := f.path }) fun _ _ => False := by
  refine move_windowless hs ?_
  rw [hpath]
  refine (hnext.left hf hlower).imp ?_
  rintro _ _ rfl
  rfl

/-- Without a window, when the cursor can enter every item, a step to the left undoes one to the right
and the other way round: the first one but at the end of everything and of the lower part of a
fraction, the second one but at the start of these. -/
theorem moves_undone (hs : s.viewport = none) (hroot : s.root.Everywhere Item.OpenHere)
    (hpath : s.path.Addresses s.root) (hfocus : Focus.ofPath s.root s.path = .ok f) :
    (¬(f.place = f.row.length ∧ (f.frames = [] ∨ f.InLower)) →
      Ensures moveRight s (fun _ t => t.path ≠ s.path ∧
        Ensures moveLeft t (fun _ u => u = s) fun _ _ => False) fun _ _ => False) ∧
    (¬(f.place = 0 ∧ (f.frames = [] ∨ f.InLower)) →
      Ensures moveLeft s (fun _ t => t.path ≠ s.path ∧
        Ensures moveRight t (fun _ u => u = s) fun _ _ => False) fun _ _ => False) := by
  obtain ⟨h, hf, hhere⟩ := Focus.exists_of_addresses hpath
  obtain rfl : h = f := by
    rw [← hhere, hf.ofPath_path] at hfocus
    exact Except.ok.inj hfocus
  constructor
  · intro hend
    -- the step back is the one from the next place to the one in front of it
    obtain ⟨g, hnext⟩ := hf.exists_next hroot fun hstop => hend ⟨hstop.1, .inl hstop.2⟩
    refine (moveRight_next hs hf hhere.symm hnext).imp ?_
    rintro _ _ rfl
    refine ⟨hhere ▸ hnext.path_ne hf, ?_⟩
    refine (moveLeft_next (s := { s with path := g.path }) hs hf hnext
      (fun hstop => hend ⟨hstop.1, .inr hstop.2⟩) rfl).imp ?_
    rintro _ _ rfl
    rw [hhere]
  · intro hstart
    obtain ⟨g, hg, hnext, hlower⟩ := hf.exists_previous hroot hstart
    refine (moveLeft_next hs hg hnext hlower hhere.symm).imp ?_
    rintro _ _ rfl
    refine ⟨hhere ▸ (hnext.path_ne hg).symm, ?_⟩
    refine (moveRight_next (s := { s with path := g.path }) hs hg rfl hnext).imp ?_
    rintro _ _ rfl
    rw [hhere]

/-- From an empty first argument, to either side and back. -/
theorem moves_undone_gcd :
    Row.Everywhere Item.OpenHere [.call .gcd [[], []]] ∧
      Path.Addresses [.call .gcd [[], []]] [0, 0, 0] ∧
      Ensures moveRight { root := [.call .gcd [[], []]], path := [0, 0, 0] }
        (fun _ t => t.path ≠ [0, 0, 0] ∧ Ensures moveLeft t
          (fun _ u => u = { root := [.call .gcd [[], []]], path := [0, 0, 0] }) fun _ _ => False)
        (fun _ _ => False) ∧
      Ensures moveLeft { root := [.call .gcd [[], []]], path := [0, 0, 0] }
        (fun _ t => t.path ≠ [0, 0, 0] ∧ Ensures moveRight t
          (fun _ u => u = { root := [.call .gcd [[], []]], path := [0, 0, 0] }) fun _ _ => False)
        fun _ _ => False := by
  have hroot : Row.Everywhere Item.OpenHere [.call .gcd [[], []]] := by
    simp [Item.everywhere_iff, Item.OpenHere, Item.slots]
  have hpath : Path.Addresses [.call .gcd [[], []]] [0, 0, 0] :=
    @Path.Addresses.inside _ _ _ 0 0 _ rfl rfl (@Path.Addresses.place _ 0 le_rfl)
  have hfocus : Focus.ofPath [.call .gcd [[], []]] [0, 0, 0] =
      .ok ⟨[⟨[.call .gcd [[], []]], 0, .call .gcd [[], []], 0⟩], [], 0⟩ := rfl
  obtain ⟨hright, hleft⟩ := moves_undone
    (s := { root := [.call .gcd [[], []]], path := [0, 0, 0] }) rfl hroot hpath hfocus
  refine ⟨hroot, hpath, hright ?_, hleft ?_⟩
  · rintro ⟨-, hinner | hlower⟩
    · exact List.cons_ne_nil _ _ hinner
    · exact hlower
  · rintro ⟨-, hinner | hlower⟩
    · exact List.cons_ne_nil _ _ hinner
    · exact hlower

-- out of the lower part of a fraction to the right, and back into the upper part
example : Ensures (moveRight >>= fun _ => moveLeft) { root := [.fraction [] []], path := [0, 1, 0] }
    (fun _ t => t.path = [0, 0, 0]) fun _ _ => False := rfl

/-! ## Insertions -/

/-- Without a window deleting undoes the insertion of an item that is just created. -/
theorem insert_undone (hs : s.viewport = none) (hpath : s.path.Addresses s.root) {item : Item}
    (hitem : item.Fresh) :
    Ensures (insert item) s (fun _ t => s.path.Removes t.root s.root ∧
      Ensures delete t (fun _ u => u = s) fun _ _ => False) fun _ _ => False := by
  obtain ⟨frames, row, place, hleads, hle, hfrom, -⟩ := hpath.exists_focus
  have hall : ∀ row, Row.Everywhere (fun _ => True) row :=
    Row.everywhere_of_forall fun _ => trivial
  refine insert_ensures (fun _ _ _ _ => trivial) (hall s.root)
    (hall [item] item (List.mem_singleton_self item)) hitem.openHere hleads hle hfrom ?_
  intro whole changed g _ hchange hnext hg
  -- without the item the row is the one from before
  have hlt : place < (row.insertIdx place item).length := by
    rw [List.length_insertIdx_of_le_length hle]
    omega
  have hback : changed.foldlM Focus.refill ((row.insertIdx place item).eraseIdx place) =
      .ok s.root := by
    rw [List.eraseIdx_insertIdx_self]
    exact hchange.back
  have hplace : s.path = Focus.way changed ++ [(place : Int)] := by rw [hfrom, hchange.way_eq]
  have hdeleted : Focus.DeletedFrom ⟨changed, row.insertIdx place item, (place + 1 : Nat)⟩ g :=
    hnext.deletedFrom hitem (by rw [List.getElem?_insertIdx_self, if_pos hle])
  refine goTo_windowless (s := { s with root := whole }) hs ⟨?_, ensures_get ?_⟩
  · rw [hplace]
    exact hchange.leads.removes (.here hlt) hback
  · refine (deleteWithin_deletedFrom (s := { s with root := whole, path := g.path }) hs hg rfl
      hdeleted hg.ahead_lt_places hback).imp ?_
    rintro _ _ rfl
    rw [← hplace]

/-- A call of two arguments, behind a digit in the upper part of a fraction. -/
theorem insert_undone_gcd :
    Path.Addresses [.fraction [.digit 1] []] [0, 0, 1] ∧ (Item.emptyCall .gcd).Fresh ∧
      Ensures (insert (.emptyCall .gcd)) { root := [.fraction [.digit 1] []], path := [0, 0, 1] }
        (fun _ t => Path.Removes [0, 0, 1] t.root [.fraction [.digit 1] []] ∧
          Ensures delete t
            (fun _ u => u = { root := [.fraction [.digit 1] []], path := [0, 0, 1] })
            fun _ _ => False)
        fun _ _ => False := by
  have hpath : Path.Addresses [.fraction [.digit 1] []] [0, 0, 1] :=
    @Path.Addresses.inside _ _ _ 0 0 _ rfl rfl (@Path.Addresses.place _ 1 le_rfl)
  exact ⟨hpath, .call .gcd, insert_undone
    (s := { root := [.fraction [.digit 1] []], path := [0, 0, 1] }) rfl hpath (.call .gcd)⟩

end Session
end Mathpad
