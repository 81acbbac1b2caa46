import Mathpad.Proofs.Movements
import Mathpad.Session.Basic

/-!
# Editing keeps the cursor at a place

A session is sound when all its items are of a kind and its path leads to a place of its row.
Moving, inserting and deleting lead from sound sessions to sound ones, for every kind of item
that does not look into rows and gives the cursor a row to enter. None of them fails as long as
there is no window: a window may be too small for the cursor, and nothing else goes wrong.
-/
set_option autoImplicit false

namespace Mathpad.Session

open Cursor (LeadsTo)

/-- All items of the session are of a kind and its path leads to a place. If there is a window
then every fault is allowed for. -/
structure Sound (P : Item → Prop) (E : Fault → Prop) (s : Session) : Prop where
  items : s.root.Everywhere P
  cursor : s.path.Addresses s.root
  window : s.viewport ≠ none → ∀ f, E f

/-- The action leads from sound sessions to sound ones, also when it fails, and then its fault is
one of those that are allowed for. -/
def Keeps {α : Type} (P : Item → Prop) (E : Fault → Prop) (m : Editing α) : Prop :=
  ∀ s : Session, s.Sound P E →
    Ensures m s (fun _ t => t.Sound P E) fun f t => t.Sound P E ∧ E f

variable {α β : Type} {P : Item → Prop} {E : Fault → Prop} {s : Session}

theorem Keeps.bind {m : Editing α} {k : α → Editing β} (hm : Keeps P E m)
    (hk : ∀ a, Keeps P E (k a)) : Keeps P E (m >>= k) :=
  fun s h => (hm s h).bind fun a t ht => hk a t ht

/-- One action after another, up to the first one that fails. -/
theorem forM_keeps {ι : Type} {act : ι → Editing Unit} {xs : List ι}
    (h : ∀ x ∈ xs, Keeps P E (act x)) : Keeps P E (xs.forM act) := by
  induction xs with
  | nil => exact fun s hs => hs
  | cons x xs ih =>
    obtain ⟨hx, hxs⟩ := List.forall_mem_cons.mp h
    exact hx.bind fun _ => ih hxs

theorem keeps_throw {f : Fault} (hf : E f) : Keeps P E (throw f : Editing α) :=
  fun _ h => ensures_throw.mpr ⟨h, hf⟩

/-! ## The window -/

/-- Showing the cursor moves the window at most, and fails only if there is one. -/
theorem showCursor_ensures (hE : s.viewport ≠ none → ∀ f, E f) :
    Ensures showCursor s
      (fun _ t => t.root = s.root ∧ t.path = s.path ∧ (t.viewport ≠ none → s.viewport ≠ none))
      fun f t => t = s ∧ E f := by
  refine ensures_get ?_
  cases hview : s.viewport with
  | none => exact ⟨rfl, rfl, fun h => absurd hview h⟩
  | some v =>
    have hwindow : s.viewport ≠ none := by simp [hview]
    -- each step computes something about the window, and leaves the session alone
    have hlift : ∀ {α : Type} (o : Outcome α),
        Ensures (liftM o : Editing α) s (fun _ t => t = s) fun f t => t = s ∧ E f := by
      intro α o
      cases o with
      | ok a => rfl
      | error f => exact ⟨rfl, hE hwindow f⟩
    refine (hlift _).bind ?_
    rintro block t rfl
    refine (hlift _).bind ?_
    rintro seen t rfl
    by_cases hclipped : seen.clipped = true
    · rw [if_pos hclipped]
      refine (hlift _).bind ?_
      rintro offset t rfl
      exact ⟨rfl, rfl, fun _ => Option.some_ne_none v⟩
    · rw [if_neg hclipped]
      exact ⟨rfl, rfl, fun _ => Option.some_ne_none v⟩

/-- What is said of the row and the path remains true while the cursor is shown. -/
theorem Sound.showCursor_ensures (h : s.Sound P E) :
    Ensures showCursor s (fun _ t => t.Sound P E ∧ t.root = s.root ∧ t.path = s.path)
      fun f t => t.Sound P E ∧ E f := by
  refine (Session.showCursor_ensures h.window).mono ?_ ?_
  · rintro _ t ⟨hroot, hpath, hview⟩
    refine ⟨⟨?_, ?_, fun ht => h.window (hview ht)⟩, hroot, hpath⟩
    · rw [hroot]
      exact h.items
    · rw [hroot, hpath]
      exact h.cursor
  · rintro f t ⟨rfl, hf⟩
    exact ⟨h, hf⟩

/-- Showing the cursor changes the window only, and fails for it only. -/
theorem showCursor_keeps : Keeps P E showCursor :=
  fun _ h => h.showCursor_ensures.imp fun _ _ ht => ht.1

/-- Going to a place keeps the session sound, if it is one. -/
theorem goTo_ensures {path : Path} (h : Sound P E { s with path }) :
    Ensures (goTo path) s (fun _ t => t.Sound P E) fun f t => t.Sound P E ∧ E f :=
  showCursor_keeps _ h

/-! ## Moving -/

/-- A movement that leads to a place leads to a sound session. -/
theorem move_ensures {movement : Cursor.Moving Unit} {Q : Path → Prop} (h : s.Sound P E)
    (hmove : Ensures movement s.path (fun _ p => Q p) fun _ _ => False)
    (hQ : ∀ p, Q p → LeadsTo s.root p) :
    Ensures (move movement) s (fun _ t => t.Sound P E ∧ t.root = s.root ∧ Q t.path)
      fun f t => t.Sound P E ∧ E f := by
  refine ensures_get ?_
  unfold Ensures at hmove
  rcases hend : Id.run (movement.run.run s.path) with ⟨_ | ⟨⟩, path⟩
  · rw [hend] at hmove
    exact hmove.elim
  · rw [hend] at hmove
    dsimp only at hmove ⊢
    obtain ⟨g, hg, rfl⟩ := hQ path hmove
    refine ensures_set (ensures_lift_ok rfl ?_)
    have hthere : Sound P E { s with path := g.path } := ⟨h.items, hg.addresses, h.window⟩
    refine hthere.showCursor_ensures.imp fun _ t ⟨ht, hroot, hpath⟩ => ⟨ht, hroot, ?_⟩
    rwa [hpath]

/-- A step to the right keeps the session sound. -/
theorem moveRight_keeps (hP : ∀ i, P i → i.OpenHere) : Keeps P E moveRight := by
  intro s h
  obtain ⟨f, hf, hpath⟩ := Focus.exists_of_addresses h.cursor
  have hright := Cursor.right_ensures hf (h.items.imp hP)
  rw [hpath] at hright
  exact (move_ensures h hright fun p ⟨g, hg, hp, _⟩ => ⟨g, hg, hp⟩).imp fun _ t ht => ht.1

/-- A step to the left keeps the session sound. -/
theorem moveLeft_keeps (hP : ∀ i, P i → i.OpenHere) : Keeps P E moveLeft := by
  intro s h
  obtain ⟨f, hf, hpath⟩ := Focus.exists_of_addresses h.cursor
  have hleft := Cursor.left_ensures hf (h.items.imp hP)
  rw [hpath] at hleft
  exact (move_ensures h hleft fun _ hp => hp).imp fun _ t ht => ht.1

/-- A step up or down keeps the session sound. -/
theorem moveVertically_keeps (direction : Cursor.Direction) :
    Keeps P E (moveVertically direction) := by
  intro s h
  obtain ⟨f, hf, hpath⟩ := Focus.exists_of_addresses h.cursor
  have hvertical := Cursor.vertical_meets Renderer.ascii direction hf
  rw [hpath] at hvertical
  obtain ⟨target, htarget, hleads⟩ := hvertical.exists_ok
  have hthere : Sound P E { s with path := target.getD s.path } := by
    refine ⟨h.items, ?_, h.window⟩
    cases target with
    | none => exact h.cursor
    | some path =>
      obtain ⟨g, hg, rfl⟩ := hleads path rfl
      exact hg.addresses
  refine ensures_get (ensures_lift_ok htarget ?_)
  exact (goTo_ensures hthere).bind fun _ t ht => ensures_pure.mpr ht

/-! ## Changing the row -/

section Changing

variable {frames : List Frame} {row : Row}

/-- An item is put at the place of the cursor, which then goes to the next place: behind the item or
into it. -/
theorem insert_ensures (hP : Item.Outward P) (hroot : s.root.Everywhere P) {item : Item}
    (hitem : item.Everywhere P) (hopen : item.OpenHere) {place : Nat}
    (hleads : Focus.Leads s.root frames row) (hle : place ≤ row.length)
    (hpath : s.path = Focus.way frames ++ [(place : Int)]) {Q : Unit → Session → Prop}
    {F : Fault → Session → Prop}
    (h : ∀ {whole changed g}, whole.Everywhere P →
      Focus.Exchange s.root frames row whole changed (row.insertIdx place item) →
      Focus.Next ⟨changed, row.insertIdx place item, place⟩ g → g.Stands whole →
      Ensures (goTo g.path) { s with root := whole } Q F) :
    Ensures (insert item) s Q F := by
  have hfocus : Focus.ofPath s.root s.path = .ok ⟨frames, row, place⟩ := by
    rw [hpath]
    exact (hleads.stands hle).ofPath_path
  -- the row with the item in it, put back into the whole
  have hrow := (hleads.everywhere hroot).insertIdx hitem place
  have hnew : (row.insertIdx place item)[place]? = some item := by
    rw [List.getElem?_insertIdx_self, if_pos hle]
  obtain ⟨whole, changed, hwhole, hchange⟩ := hleads.rebuild hP hroot hrow
  have hrebuild : Focus.rebuild ⟨frames, row, place⟩ (Place.insert row place item) = .ok whole := by
    rw [Place.insert_natCast hle]
    exact hchange.there
  have hstands := hchange.leads.stands (List.getElem?_eq_some_iff.mp hnew).1.le
  have hgoTo : ∀ g, Focus.Next ⟨changed, row.insertIdx place item, place⟩ g →
      Ensures (goTo g.path) { s with root := whole } Q F :=
    fun g hnext => h hwhole hchange hnext (hnext.stands hstands)
  have hinside : (∀ t, item ≠ .token t) → Ensures (goTo ((s.path.push 0).push 0))
      { s with root := whole } Q F := by
    intro hne
    obtain ⟨inner, hslot⟩ := hopen.first_slot hne
    have hg := hgoTo _ (.into hnew hslot)
    rwa [Focus.path_inward, hchange.way_eq, ← hpath] at hg
  refine ensures_get (ensures_lift_ok hfocus (ensures_lift_ok hrebuild (ensures_set ?_)))
  cases item with
  | token t =>
    have hg := hgoTo _ (.past hnew)
    rw [Focus.path, hchange.way_eq] at hg
    refine ensures_lift_ok ?_ hg
    rw [hpath]
    exact Path.shift_append _ (by omega)
  | sqrt | fraction | parentheses | power | call => exact hinside (by rintro t ⟨⟩)

/-- The item in front of the cursor is taken out of its row, and the cursor goes to where it was. -/
theorem deleteWithin_behind {moves k : Nat} {whole : Row} (hleads : Focus.Leads s.root frames row)
    (hk : k < row.length) (hpath : s.path = Focus.way frames ++ [((k + 1 : Nat) : Int)])
    (hfold : frames.foldlM Focus.refill (row.eraseIdx k) = .ok whole) {Q : Unit → Session → Prop}
    {F : Fault → Session → Prop}
    (h : Ensures (goTo (Focus.way frames ++ [(k : Int)])) { s with root := whole } Q F) :
    Ensures (deleteWithin (moves + 1)) s Q F := by
  have hback : ((k + 1 : Nat) : Int) - 1 = k := by omega
  have hfocus : Focus.ofPath s.root s.path = .ok ⟨frames, row, (k + 1 : Nat)⟩ := by
    rw [hpath]
    exact (hleads.stands hk).ofPath_path
  have hshift : s.path.shift (-1) = .ok (Focus.way frames ++ [(k : Int)]) := by
    rw [hpath, Path.shift_append _ (by omega), ← hback, Int.sub_eq_add_neg]
  refine ensures_get (ensures_lift_ok hfocus ?_)
  dsimp only
  rw [if_pos (by omega), hback]
  exact ensures_lift_ok (Place.erase_natCast hk)
    (ensures_lift_ok hfold (ensures_set (ensures_lift_ok hshift h)))

end Changing

/-- An item of the kind is inserted, and the cursor moves behind it or into it. -/
theorem insert_keeps (hP : Item.Outward P) (hopen : ∀ i, P i → i.OpenHere) {item : Item}
    (hitem : item.Everywhere P) : Keeps P E (insert item) := by
  intro s h
  obtain ⟨frames, row, place, hleads, hle, hpath, -⟩ := h.cursor.exists_focus
  have hhere := hopen item (Item.everywhere_iff.mp hitem).1
  refine insert_ensures hP h.items hitem hhere hleads hle hpath ?_
  exact fun hwhole _ _ hg => goTo_ensures ⟨hwhole, hg.addresses, h.window⟩

/-- The item before the cursor is deleted, as soon as there is one: a step to the right leaves
less ahead, so an item is reached before the moves are used up. -/
theorem deleteWithin_ensures (hP : Item.Outward P) (hopen : ∀ i, P i → i.OpenHere) {moves : Nat}
    (h : s.Sound P E) {f : Focus} (hf : f.Stands s.root) (hpath : f.path = s.path)
    (hmoves : f.ahead < moves) :
    Ensures (deleteWithin moves) s (fun _ t => t.Sound P E) fun f t => t.Sound P E ∧ E f := by
  induction moves generalizing s f with
  | zero => exact absurd hmoves (Nat.not_lt_zero _)
  | succ moves ih =>
    by_cases hplace : 0 < f.place
    · -- there is an item in front of the cursor: it is taken out, and the rows around it are put
      -- together again
      obtain ⟨frames, row, k, rfl, hleads, hk⟩ := hf.exists_behind hplace
      have hrow := (hleads.everywhere h.items).eraseIdx k
      have hlength : k ≤ (row.eraseIdx k).length := by
        rw [List.length_eraseIdx_of_lt hk]
        omega
      obtain ⟨whole, changed, hwhole, hchange⟩ := hleads.rebuild hP h.items hrow
      refine deleteWithin_behind hleads hk hpath.symm hchange.there (goTo_ensures ?_)
      have hthere := (hchange.leads.stands hlength).addresses
      rw [Focus.path, hchange.way_eq] at hthere
      exact ⟨hwhole, hthere, h.window⟩
    -- there is none: a step to the right, unless the cursor is at the start of everything
    have hfocus := hf.ofPath_path
    have hright := Cursor.right_ensures hf (h.items.imp hopen)
    rw [hpath] at hfocus hright
    refine ensures_get (ensures_lift_ok hfocus ?_)
    rw [if_neg hplace]
    by_cases houter : s.path.isOuter = true
    · rw [if_pos houter]
      exact showCursor_keeps s h
    rw [if_neg houter]
    have hinner : f.frames ≠ [] := fun hframes =>
      houter (hpath ▸ Focus.isOuter_path.mpr hframes)
    have hleads : ∀ p, (∃ g : Focus, g.Stands s.root ∧ g.path = p ∧
        (f.frames ≠ [] → g.ahead < f.ahead)) → LeadsTo s.root p := by
      rintro p ⟨g, hg, hp, -⟩
      exact ⟨g, hg, hp⟩
    refine (move_ensures h hright hleads).bind ?_
    rintro _ t ⟨ht, hroot, g, hg, hp, hlt⟩
    have hless := hlt hinner
    refine (ih ht (hroot ▸ hg) hp (by omega)).bind fun _ u hu => ?_
    exact showCursor_keeps u hu

/-- Deleting keeps the session sound, if the kind of items does not depend on what is inside. -/
theorem delete_keeps (hP : Item.Outward P) (hopen : ∀ i, P i → i.OpenHere) :
    Keeps P E delete := by
  intro s h
  obtain ⟨f, hf, hpath⟩ := Focus.exists_of_addresses h.cursor
  exact ensures_get (deleteWithin_ensures hP hopen h hf hpath hf.ahead_lt_places)

/-- Clearing leaves nothing that could be unsound. -/
theorem clear_keeps : Keeps P E clear := by
  intro s h
  refine ensures_modify.mpr ⟨Row.everywhere_nil, .place (Nat.zero_le _), fun hview => ?_⟩
  refine h.window fun hnone => hview ?_
  dsimp only
  rw [hnone, Option.map_none]

/-- Another row takes the place of everything. -/
theorem replaceAll_keeps {root : Row} {place : Nat} (hroot : root.Everywhere P)
    (hplace : place ≤ root.length) : Keeps P E (replaceAll root place) := by
  intro s h
  have hthere : Sound P E { s with root, path := [(place : Int)] } :=
    ⟨hroot, .place hplace, h.window⟩
  show Ensures (goTo [(place : Int)]) { s with root } (fun _ t => t.Sound P E)
    fun f t => t.Sound P E ∧ E f
  exact goTo_ensures hthere

end Mathpad.Session
