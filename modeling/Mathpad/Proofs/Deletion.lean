import Mathpad.Proofs.LoadedRows

/-!
# Deleting takes one item away

Deleting looks for an item before the cursor. Where there is none, at the start of an inner row, the
cursor goes on to the right until there is one, through further arguments, into other items or out of
the one that it is in: `Focus.DeletedFrom` says where this ends. It does end, since every step leaves
less ahead, and only at the start of everything it does not begin.

Then one item is taken out of one row. That nothing else changes in the whole is said by
`Path.Removes`, along the path to where the item was, and the cursor is there at the end
(`Session.delete_removes`).
-/
set_option autoImplicit false

namespace Mathpad

/-! ## One item less -/

/-- Without the item that the path leads to the one row is the other. All items beside those on the
path are the same in both, and those on the path differ in one of their rows. -/
inductive Path.Removes : Path → Row → Row → Prop
  | here {row : Row} {index : Nat} (h : index < row.length) :
      Removes [(index : Int)] row (row.eraseIdx index)
  | inside {row inner shorter : Row} {item : Item} {index slot : Nat} {rest : Path}
      (hitem : row[index]? = some item) (hslot : item.slots[slot]? = some inner)
      (h : Removes rest inner shorter) :
      Removes ((index : Int) :: (slot : Int) :: rest) row
        (row.set index (item.withSlots (item.slots.set slot shorter)))

/-- Where the item was there is a place for the cursor. -/
theorem Path.Removes.addresses {p : Path} {row shorter : Row} (h : p.Removes row shorter) :
    p.Addresses shorter := by
  induction h with
  | here h =>
    refine .place ?_
    rw [List.length_eraseIdx_of_lt h]
    omega
  | inside hitem hslot _ ih =>
    obtain ⟨hindex, -⟩ := List.getElem?_eq_some_iff.mp hitem
    obtain ⟨hj, -⟩ := List.getElem?_eq_some_iff.mp hslot
    refine .inside (List.getElem?_set_self hindex) ?_ ih
    rw [Item.slots_withSlots List.length_set]
    exact List.getElem?_set_self hj

namespace Focus

variable {root row whole other : Row} {frames : List Frame} {rest : Path} {e f g : Focus}

/-- With one item less in a row there is one item less in the whole. -/
theorem Leads.removes (h : Leads root frames row) (hrest : rest.Removes row other)
    (hfold : frames.foldlM refill other = .ok whole) : (way frames ++ rest).Removes root whole := by
  induction h generalizing rest other with
  | start =>
    obtain rfl : other = whole := Except.ok.inj hfold
    exact hrest
  | inward _ hitem hslot ih =>
    rw [List.foldlM_cons, refill_eq hitem hslot, ok_bind] at hfold
    rw [way, List.append_assoc]
    exact ih (.inside hitem hslot hrest) hfold

/-! ## Where something is deleted -/

/-- The item before `e` is the one that is deleted with the cursor at the focus: the cursor goes to
`e` from one start of an inner row to the next. -/
inductive DeletedFrom (e : Focus) : Focus → Prop
  | here (h : 0 < e.place) : DeletedFrom e e
  | right {f g : Focus} (hplace : f.place = 0) (hinner : f.frames ≠ []) (hnext : f.Next g)
      (h : DeletedFrom e g) : DeletedFrom e f

/-- Where something is deleted is a place, if the cursor was at one. -/
theorem DeletedFrom.stands (h : e.DeletedFrom f) (hf : f.Stands root) : e.Stands root := by
  induction h with
  | here => exact hf
  | right _ _ hnext _ ih => exact ih (hnext.stands hf)

theorem DeletedFrom.place_pos (h : e.DeletedFrom f) : 0 < e.place := by
  induction h with
  | here h => exact h
  | right _ _ _ _ ih => exact ih

/-- No step leads to the start of everything. -/
theorem Next.not_start (h : f.Next g) : ¬(g.place = 0 ∧ g.frames = []) := by
  rintro ⟨hplace, hframes⟩
  cases h with
  | past | outOf => exact absurd hplace (Int.natCast_ne_zero.mpr (Nat.succ_ne_zero _))
  | into | across => exact absurd hframes (List.cons_ne_nil _ _)

/-- Something is deleted wherever the cursor is, but at the start of everything. -/
theorem Stands.exists_deletedFrom (h : f.Stands root) (hroot : root.Everywhere Item.OpenHere)
    (hstart : ¬(f.place = 0 ∧ f.frames = [])) : ∃ e : Focus, e.DeletedFrom f := by
  -- by induction on what lies ahead of the cursor
  induction hn : f.ahead using Nat.strong_induction_on generalizing f with
  | _ n ih =>
  rcases h.nonneg.lt_or_eq with hplace | hplace
  · exact ⟨f, .here hplace⟩
  have hinner : f.frames ≠ [] := fun hframes => hstart ⟨hplace.symm, hframes⟩
  obtain ⟨g, hnext⟩ := h.exists_next hroot fun hend => hinner hend.2
  obtain ⟨e, he⟩ := ih _ (hn ▸ hnext.ahead_lt) (hnext.stands h) hnext.not_start rfl
  exact ⟨e, .right hplace.symm hinner hnext he⟩

end Focus

/-! ## Deleting without a window -/

namespace Session

variable {s : Session} {row whole : Row} {frames : List Frame} {f g : Focus} {moves k : Nat}

/-- The cursor goes on to the next place. -/
theorem moveRight_next (hs : s.viewport = none) (hf : f.Stands s.root) (hpath : s.path = f.path)
    (hnext : f.Next g) :
    Ensures moveRight s (fun _ t => t = { s with path := g.path }) fun _ _ => False := by
  refine move_windowless hs ?_
  rw [hpath]
  refine (hnext.right hf).imp ?_
  rintro _ _ rfl
  rfl

/-- An item is taken out of its row, and the cursor goes to where it was, if there are moves enough to
come there. -/
theorem deleteWithin_deletedFrom (hs : s.viewport = none) (hf : f.Stands s.root)
    (hpath : s.path = f.path) (h : Focus.DeletedFrom ⟨frames, row, (k + 1 : Nat)⟩ f)
    (hmoves : f.ahead < moves) (hfold : frames.foldlM Focus.refill (row.eraseIdx k) = .ok whole) :
    Ensures (deleteWithin moves) s
      (fun _ t => t = { s with root := whole, path := Focus.way frames ++ [(k : Int)] })
      fun _ _ => False := by
  induction h generalizing s moves with
  | here =>
    obtain ⟨moves, rfl⟩ := Nat.exists_eq_add_one.mpr (Nat.zero_lt_of_lt hmoves)
    have hk : k < row.length := by
      have hle := hf.le_length
      dsimp only at hle
      omega
    exact deleteWithin_behind hf.leads hk hpath hfold
      (goTo_windowless (s := { s with root := whole }) hs rfl)
  | @right f g hplace hinner hnext _ ih =>
    obtain ⟨moves, rfl⟩ := Nat.exists_eq_add_one.mpr (Nat.zero_lt_of_lt hmoves)
    -- nothing is in front of the cursor, so that it goes one step to the right and the search goes
    -- on there
    have hfocus : Focus.ofPath s.root s.path = .ok f := hpath ▸ hf.ofPath_path
    have houter : ¬s.path.isOuter = true := fun houter =>
      hinner (Focus.isOuter_path.mp (hpath ▸ houter))
    have hless := hnext.ahead_lt
    have hthere := ih (s := { s with path := g.path }) hs (hnext.stands hf) rfl
      (show g.ahead < moves by omega)
    refine ensures_get (ensures_lift_ok hfocus ?_)
    rw [if_neg (by omega), if_neg houter]
    refine (moveRight_next hs hf hpath hnext).bind ?_
    rintro _ _ rfl
    refine hthere.bind ?_
    rintro _ _ rfl
    exact showCursor_windowless (s := { s with root := whole, path := _ }) hs rfl

/-- At the start of everything nothing is deleted. -/
theorem deleteWithin_start (hs : s.viewport = none) (hpath : s.path = [0]) :
    Ensures (deleteWithin (moves + 1)) s (fun _ t => t = s) fun _ _ => False := by
  have hfocus : Focus.ofPath s.root s.path = .ok ⟨[], s.root, 0⟩ := by rw [hpath]; rfl
  refine ensures_get (ensures_lift_ok hfocus ?_)
  rw [if_neg (lt_irrefl _), if_pos (by rw [hpath]; rfl)]
  exact showCursor_windowless hs rfl

/-- Without a window, when the cursor can enter every item, deleting ends: at the start of everything
it changes nothing, and elsewhere it takes one item out of one row and leaves the cursor there. -/
theorem delete_removes (hs : s.viewport = none) (hroot : s.root.Everywhere Item.OpenHere)
    (hpath : s.path.Addresses s.root) :
    Ensures delete s
      (fun _ t => (s.path = [0] → t = s) ∧ (s.path ≠ [0] → t.viewport = none ∧
        t.path.Removes s.root t.root ∧ t.path.Addresses t.root))
      fun _ _ => False := by
  refine ensures_get ?_
  by_cases hstart : s.path = [0]
  · refine (deleteWithin_start hs hstart).imp ?_
    rintro _ _ rfl
    exact ⟨fun _ => rfl, fun h => absurd hstart h⟩
  obtain ⟨f, hf, hfpath⟩ := Focus.exists_of_addresses hpath
  have hinner : ¬(f.place = 0 ∧ f.frames = []) := fun h =>
    hstart (hfpath ▸ Focus.path_eq_start.mpr h)
  obtain ⟨e, he⟩ := hf.exists_deletedFrom hroot hinner
  -- there is an item before the place that the cursor comes to
  obtain ⟨frames, row, k, rfl, hleads, hk⟩ := (he.stands hf).exists_behind he.place_pos
  have hrow := (hleads.everywhere hroot).eraseIdx k
  obtain ⟨whole, changed, -, hchange⟩ := hleads.rebuild Item.outward_openHere hroot hrow
  have hremoves := hleads.removes (.here hk) hchange.there
  refine (deleteWithin_deletedFrom hs hf hfpath.symm he hf.ahead_lt_places hchange.there).imp ?_
  rintro _ _ rfl
  exact ⟨fun h => absurd h hstart, fun _ => ⟨hs, hremoves, hremoves.addresses⟩⟩

/-- From the empty first argument the cursor goes on to the second one, into the root there and out of
it again: this is what it deletes. -/
theorem delete_removes_root :
    Row.Everywhere Item.OpenHere [.fraction [.call .gcd [[], [.sqrt []]]] []] ∧
      Path.Addresses [.fraction [.call .gcd [[], [.sqrt []]]] []] [0, 0, 0, 0, 0] ∧
      Ensures delete
        { root := [.fraction [.call .gcd [[], [.sqrt []]]] []], path := [0, 0, 0, 0, 0] }
        (fun _ t => t.path.Removes [.fraction [.call .gcd [[], [.sqrt []]]] []] t.root ∧
          t.path = [0, 0, 0, 1, 0])
        fun _ _ => False := by
  have hroot : Row.Everywhere Item.OpenHere [.fraction [.call .gcd [[], [.sqrt []]]] []] := by
    simp [Item.everywhere_iff, Item.OpenHere, Item.slots]
  have hpath : Path.Addresses [.fraction [.call .gcd [[], [.sqrt []]]] []] [0, 0, 0, 0, 0] :=
    @Path.Addresses.inside _ _ _ 0 0 _ rfl rfl
      (@Path.Addresses.inside _ _ _ 0 0 _ rfl rfl (@Path.Addresses.place _ 0 (Nat.zero_le _)))
  have hends : Ensures delete
      { root := [.fraction [.call .gcd [[], [.sqrt []]]] []], path := [0, 0, 0, 0, 0] }
      (fun _ t => t.path = [0, 0, 0, 1, 0]) fun _ _ => False := rfl
  have hremoves := delete_removes
    (s := { root := [.fraction [.call .gcd [[], [.sqrt []]]] []], path := [0, 0, 0, 0, 0] })
    rfl hroot hpath
  refine ⟨hroot, hpath, (hremoves.and hends).mono ?_ ?_⟩
  · rintro _ t ⟨⟨-, hinside⟩, hplace⟩
    exact ⟨(hinside (by decide)).2.1, hplace⟩
  · rintro _ _ ⟨⟨⟩, -⟩

end Session
end Mathpad
