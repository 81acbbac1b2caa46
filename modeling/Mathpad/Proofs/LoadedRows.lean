import Mathpad.Proofs.Decoding
import Mathpad.Proofs.KeyScripts

/-!
# Which files can be edited

The row of a file is whatever its bytes say, and they may say that a call has no arguments. The
cursor enters a call without a look at its arguments, so it is then at no place, and the next step
fails. That is all that can go wrong: a row in which every call has an argument can be edited in
every way, and only such a row (`Session.loaded_editable_iff`).

For the one direction edits keep sessions sound, as keys do. For the other one the cursor goes
everywhere as long as no edits fail (`Safe`): from one place in a row it comes to all of them, over
each item and through all the rows inside it, to the right as well as to the left, since it comes
into the lower part of a fraction only from above, at a place in the middle (`Safe.explored`).
-/
set_option autoImplicit false

namespace Mathpad

/-- Whether the cursor can enter an item does not depend on what is in its rows. -/
theorem Item.outward_openHere : Outward OpenHere := by
  intro item rows hlength h
  by_cases htoken : ∃ t, item = .token t
  · obtain ⟨t, rfl⟩ := htoken
    trivial
  · obtain ⟨inner, hslot⟩ := h.first_slot fun t ht => htoken ⟨t, ht⟩
    obtain ⟨hcount, -⟩ := List.getElem?_eq_some_iff.mp hslot
    have hrows : (item.withSlots rows).slots ≠ [] := by
      rw [slots_withSlots hlength]
      exact List.length_pos_iff.mp (hlength ▸ hcount)
    unfold OpenHere
    split
    · trivial
    · exact hrows

namespace Session

variable {s : Session} {root row : Row} {p q : Path}

/-! ## Edits -/

/-- What can be done to the row of a session and to its cursor. -/
inductive Edit where
  | left
  | right
  | up
  | down
  | insert (item : Item)
  | delete

namespace Edit

/-- What an edit does to a session. -/
def act : Edit → Editing Unit
  | left => moveLeft
  | right => moveRight
  | up => discard (moveVertically .up)
  | down => discard (moveVertically .down)
  | insert item => Session.insert item
  | delete => Session.delete

/-- All that the edit inserts is of a kind. -/
def Inserts (P : Item → Prop) : Edit → Prop
  | insert item => item.Everywhere P
  | _ => True

/-- Every edit keeps a property of items that the cursor can enter, if it inserts such items only.
-/
theorem act_keeps {P : Item → Prop} {E : Fault → Prop} (hP : Item.Outward P)
    (hopen : ∀ i, P i → i.OpenHere) {edit : Edit} (h : edit.Inserts P) : Keeps P E edit.act := by
  have hvertical : ∀ d, Keeps P E (discard (moveVertically d)) := fun d s hs =>
    (moveVertically_keeps d s hs).bind fun _ _ ht => ensures_pure.mpr ht
  cases edit with
  | left => exact moveLeft_keeps hopen
  | right => exact moveRight_keeps hopen
  | up => exact hvertical .up
  | down => exact hvertical .down
  | insert item => exact insert_keeps hP hopen h
  | delete => exact delete_keeps hP hopen

/-- An edit that inserts items of one kind inserts items of every wider kind. -/
theorem Inserts.imp {P Q : Item → Prop} {edit : Edit} (h : edit.Inserts P) (hPQ : ∀ i, P i → Q i) :
    edit.Inserts Q := by
  cases edit with
  | insert item => exact Item.Everywhere.imp h hPQ
  | left | right | up | down | delete => trivial

end Edit

/-- A key is an edit, clears the row, evaluates it, or is none. -/
theorem strike_elim {settings : EvalSettings} {motive : Editing Unit → Prop}
    (hedit : ∀ edit : Edit, edit.Inserts Item.KeyedHere → motive edit.act) (hclear : motive clear)
    (hevaluate : motive (discard (replaceWithResult settings)))
    (hthrow : ∀ e, motive (throw (.input e))) (key : Key) : motive (strike settings key) := by
  cases key with
  | typed c =>
    rw [strike, typeText_singleton]
    cases ht : Token.ofChar? c with
    | some t => exact hedit (.insert (.token t)) (Item.everywhere_token (Token.ofChar?_keyed ht))
    | none =>
      dsimp only
      by_cases hletter : Text.isLetter c = true
      · rw [if_pos hletter]
        exact hedit (.insert (.var _)) (Item.everywhere_token ⟨c, hletter, rfl⟩)
      · rw [if_neg hletter]
        exact hthrow _
  | named name =>
    rw [strike]
    -- one case for each named key that is an edit of its own, and one for those that insert an item
    unfold press
    split
    · exact hedit .left trivial
    · exact hedit .right trivial
    · exact hedit .up trivial
    · exact hedit .down trivial
    · exact hedit .delete trivial
    · exact hclear
    · exact hevaluate
    · cases hitem : Key.item? name with
      | some item => exact hedit (.insert item) (Key.item?_keyed hitem)
      | none => exact hthrow _

/-- Some edits, up to the first one that fails. -/
def perform (edits : List Edit) : Editing Unit := edits.forM Edit.act

theorem perform_concat (edits : List Edit) (edit : Edit) :
    perform (edits ++ [edit]) = perform edits >>= fun _ => edit.act := by
  simp only [perform, List.forM_eq_forM, List.forM_append, List.forM_cons, List.forM_nil, bind_pure_unit]

/-! ## Without a window -/

/-- Without a window there is nothing to scroll. -/
theorem showCursor_windowless (hs : s.viewport = none) {Q : Unit → Session → Prop}
    {E : Fault → Session → Prop} (hQ : Q () s) : Ensures showCursor s Q E := by
  refine ensures_get ?_
  rw [hs]
  exact hQ

/-- Without a window, going to a place changes the path and nothing else. -/
theorem goTo_windowless (hs : s.viewport = none) {Q : Unit → Session → Prop}
    {E : Fault → Session → Prop} (hQ : Q () { s with path := p }) : Ensures (goTo p) s Q E :=
  showCursor_windowless (s := { s with path := p }) hs hQ

/-- A movement of the cursor does to the path what it does by itself. -/
theorem move_windowless {movement : Cursor.Moving Unit} (hs : s.viewport = none)
    {Q : Unit → Session → Prop} {E : Fault → Session → Prop}
    (h : Ensures movement s.path (fun a p => Q a { s with path := p })
      fun f p => E f { s with path := p }) : Ensures (move movement) s Q E := by
  refine ensures_get ?_
  unfold Ensures at h
  rcases hend : Id.run (movement.run.run s.path) with ⟨f | ⟨⟩, path⟩ <;> rw [hend] at h
  · exact h
  · exact ensures_set (ensures_lift_ok rfl (showCursor_windowless (s := { s with path }) hs h))

/-- Loading a row without a window makes a session of it, with the cursor at the start. -/
theorem load_windowless {bytes : Bytes} (h : Row.ofBytes? bytes = some root) (fileName : String)
    (hs : s.viewport = none) :
    Ensures (load fileName bytes) s (fun _ t => t = { root }) fun _ _ => False := by
  rw [load, h]
  refine showCursor_windowless (s := { s with root, path := [0] }) hs ?_
  rw [hs]

/-! ## Places that can be reached -/

/-- No edits of the row fail, if only the cursor can enter what they insert. -/
def Safe (root : Row) : Prop :=
  ∀ edits : List Edit, (∀ edit ∈ edits, edit.Inserts Item.OpenHere) →
    Ensures (perform edits) { root } (fun _ _ => True) fun _ _ => False

/-- Some movements from the start lead to the path. -/
def Reached (root : Row) (p : Path) : Prop :=
  ∃ edits : List Edit, (∀ edit ∈ edits, edit.Inserts Item.OpenHere) ∧
    Ensures (perform edits) { root } (fun _ t => t = { root, path := p }) fun _ _ => False

theorem reached_start (root : Row) : Reached root [0] := ⟨[], by simp, rfl⟩

/-- A place that one edit leads to from a place that can be reached, can be reached. -/
theorem Reached.step (h : Reached root p) (edit : Edit) (hedit : edit.Inserts Item.OpenHere)
    (hact : Ensures edit.act { root, path := p } (fun _ t => t = { root, path := q })
      fun _ _ => False) : Reached root q := by
  obtain ⟨edits, hinserts, hperform⟩ := h
  refine ⟨edits ++ [edit], ?_, ?_⟩
  · exact List.forall_mem_append.mpr ⟨hinserts, List.forall_mem_singleton.mpr hedit⟩
  · rw [perform_concat]
    refine hperform.bind ?_
    rintro _ _ rfl
    exact hact

/-- What is one step to the right of a place that can be reached, can be reached. -/
theorem Reached.right (h : Reached root p)
    (hright : Ensures (Cursor.right root) p (fun _ r => r = q) fun _ _ => False) :
    Reached root q := by
  refine h.step .right trivial (move_windowless rfl (hright.imp ?_))
  rintro _ _ rfl
  rfl

/-- What is one step to the left of a place that can be reached, can be reached. -/
theorem Reached.left (h : Reached root p)
    (hleft : Ensures (Cursor.left root) p (fun _ r => r = q) fun _ _ => False) :
    Reached root q := by
  refine h.step .left trivial (move_windowless rfl (hleft.imp ?_))
  rintro _ _ rfl
  rfl

/-- What is below a place that can be reached, can be reached. -/
theorem Reached.down (h : Reached root p)
    (hdown : Cursor.vertical Renderer.ascii .down root p = .ok (some q)) : Reached root q := by
  have hmove : Ensures (moveVertically .down) { root, path := p }
      (fun _ t => t = { root, path := q }) fun _ _ => False :=
    ensures_get (ensures_lift_ok hdown (Ensures.bind (goTo_windowless rfl rfl) fun _ _ ht => ht))
  exact h.step .down trivial (hmove.bind fun _ _ ht => ht)

/-- Where no edits fail, none does at a place that can be reached. -/
theorem Safe.act (hsafe : Safe root) (h : Reached root p) (edit : Edit)
    (hedit : edit.Inserts Item.OpenHere) :
    Ensures edit.act { root, path := p } (fun _ _ => True) fun _ _ => False := by
  obtain ⟨edits, hinserts, hperform⟩ := h
  have hboth := hsafe (edits ++ [edit])
    (List.forall_mem_append.mpr ⟨hinserts, List.forall_mem_singleton.mpr hedit⟩)
  rw [perform_concat, ensures_bind] at hboth
  refine ((hboth.and hperform).mono ?_ ?_).elim
  · rintro _ _ ⟨hact, rfl⟩
    exact hact
  · rintro _ _ ⟨⟨⟩, -⟩

/-- Where no edits fail, neither does a step of the cursor. -/
theorem Safe.right (hsafe : Safe root) (h : Reached root p) :
    ¬Ensures (Cursor.right root) p (fun _ _ => False) fun _ _ => True := by
  intro hright
  have hfails : Ensures moveRight { root, path := p } (fun _ _ => False) fun _ _ => True :=
    move_windowless rfl hright
  exact ((hfails.and (hsafe.act h .right trivial)).mono (fun _ _ hend => hend.1)
    fun _ _ hend => hend.2).elim

/-- Where no edit fails, no step to the left fails from a place that can be reached. -/
theorem Safe.left (hsafe : Safe root) (h : Reached root p) :
    ¬Ensures (Cursor.left root) p (fun _ _ => False) fun _ _ => True := by
  intro hleft
  have hfails : Ensures moveLeft { root, path := p } (fun _ _ => False) fun _ _ => True :=
    move_windowless rfl hleft
  exact ((hfails.and (hsafe.act h .left trivial)).mono (fun _ _ hend => hend.1)
    fun _ _ hend => hend.2).elim

/-! ## Everything can be reached -/

section Exploring

variable {frames : List Frame} {item : Item} {index : Nat}

/-- There is a place in the row that can be reached. -/
def Visited (root : Row) (frames : List Frame) (row : Row) : Prop :=
  ∃ k : Nat, k ≤ row.length ∧ Reached root (Focus.path ⟨frames, row, k⟩)

/-- All places of the row can be reached, and the cursor can enter everything in it. -/
structure Explored (root : Row) (frames : List Frame) (row : Row) : Prop where
  reached (k : Nat) (hk : k ≤ row.length) : Reached root (Focus.path ⟨frames, row, k⟩)
  items : row.Everywhere Item.OpenHere

/-- The places on both sides of an item can be reached. -/
def Crossed (root : Row) (frames : List Frame) (row : Row) (index : Nat) : Prop :=
  Reached root (Focus.path ⟨frames, row, index⟩) ∧
    Reached root (Focus.path ⟨frames, row, (index + 1 : Nat)⟩)

/-- What goes over from each number below a bound to its neighbours is true of all or of none. -/
theorem forall_lt_of_neighbours {n i : Nat} {P : Nat → Prop}
    (hstep : ∀ k, k + 1 < n → (P k ↔ P (k + 1))) (hi : i < n) (h : P i) : ∀ k < n, P k := by
  -- whatever is true of `i` is true of zero, and so of all
  have hzero : ∀ k < n, (P 0 ↔ P k) := by
    intro k hk
    induction k with
    | zero => exact Iff.rfl
    | succ k ih => exact (ih (Nat.lt_of_succ_lt hk)).trans (hstep k hk)
  exact fun k hk => (hzero k hk).mp ((hzero i hi).mpr h)

/-- A token can be crossed in either direction. -/
theorem crossed_token {t : Token} (h : Focus.Leads root frames row)
    (hitem : row[index]? = some (.token t))
    (hside : Reached root (Focus.path ⟨frames, row, index⟩) ∨
      Reached root (Focus.path ⟨frames, row, (index + 1 : Nat)⟩)) :
    Crossed root frames row index := by
  rcases hside with hbefore | hbehind
  · exact ⟨hbefore, hbefore.right (Cursor.right_token h hitem rfl)⟩
  · exact ⟨hbehind.left (Cursor.left_token h hitem rfl), hbehind⟩

/-- From both sides the cursor enters the first row of an item that is no call. -/
theorem crossed_first {inner : Row} (h : Focus.Leads root frames row)
    (hitem : row[index]? = some item) (hcall : ∀ f args, item ≠ .call f args)
    (hslot : item.slots[0]? = some inner)
    (inside : Visited root (⟨row, index, item, (0 : Nat)⟩ :: frames) inner →
      Explored root (⟨row, index, item, (0 : Nat)⟩ :: frames) inner)
    (hside : Reached root (Focus.path ⟨frames, row, index⟩) ∨
      Reached root (Focus.path ⟨frames, row, (index + 1 : Nat)⟩)) :
    Crossed root frames row index ∧
      Explored root (⟨row, index, item, (0 : Nat)⟩ :: frames) inner := by
  -- from the left the cursor comes to the start of the inner row, from the right to its end
  have hexplored : Explored root (⟨row, index, item, (0 : Nat)⟩ :: frames) inner := by
    rcases hside with hbefore | hbehind
    · have hne : ∀ t, item ≠ .token t := by
        rintro t rfl
        cases hslot
      refine inside ⟨0, Nat.zero_le _, hbefore.right (Cursor.right_enter h hitem hne ?_)⟩
      exact Focus.path_inward.symm
    · exact inside ⟨inner.length, le_rfl, hbehind.left (Cursor.left_enter h hitem hslot
        (fun f args hf => absurd hf (hcall f args)) (fun _ => rfl) rfl)⟩
  have hstart := hexplored.reached 0 (Nat.zero_le _)
  have hend := hexplored.reached inner.length le_rfl
  exact ⟨⟨hstart.left (Cursor.left_leave h hitem hslot (fun _ _ _ => rfl) rfl),
    hend.right (Cursor.right_leave h hitem hslot (fun f args hf => absurd hf (hcall f args)) rfl)⟩,
    hexplored⟩

/-- An argument is visited from the ones beside it, so all of them are, or none. -/
theorem explored_args {f : NamedFunction} {args : List Row} (h : Focus.Leads root frames row)
    (hitem : row[index]? = some (.call f args))
    (inside : ∀ {slot : Nat} {inner : Row}, args[slot]? = some inner →
      Visited root (⟨row, index, .call f args, slot⟩ :: frames) inner →
      Explored root (⟨row, index, .call f args, slot⟩ :: frames) inner)
    {i : Nat} {arg : Row} (harg : args[i]? = some arg)
    (hvisited : Visited root (⟨row, index, .call f args, i⟩ :: frames) arg) {slot : Nat}
    {inner : Row} (hslot : args[slot]? = some inner) :
    Explored root (⟨row, index, .call f args, slot⟩ :: frames) inner := by
  obtain ⟨hi, -⟩ := List.getElem?_eq_some_iff.mp harg
  obtain ⟨hlt, -⟩ := List.getElem?_eq_some_iff.mp hslot
  -- the end of an argument is next to the start of the one behind it
  have hall : ∀ k < args.length, ∀ inner, args[k]? = some inner →
      Explored root (⟨row, index, .call f args, k⟩ :: frames) inner := by
    refine forall_lt_of_neighbours ?_ hi ?_
    · intro k hk
      have hleft : args[k]? = some args[k] := List.getElem?_eq_getElem (Nat.lt_of_succ_lt hk)
      have hright : args[k + 1]? = some args[k + 1] := List.getElem?_eq_getElem hk
      constructor
      · intro hexplored inner hinner
        have hend := (hexplored _ hleft).reached args[k].length le_rfl
        exact inside hinner ⟨0, Nat.zero_le _,
          hend.right (Cursor.right_next h hitem hleft hinner rfl)⟩
      · intro hexplored inner hinner
        have hstart := (hexplored _ hright).reached 0 (Nat.zero_le _)
        exact inside hinner ⟨inner.length, le_rfl,
          hstart.left (Cursor.left_previous h hitem hright hinner rfl)⟩
    · rintro inner hinner
      obtain rfl := Option.some.inj (harg.symm.trans hinner)
      exact inside harg hvisited
  exact hall slot hlt inner hslot

/-- A call without arguments is entered from no side. -/
theorem Safe.not_beside_empty (hsafe : Safe root) {f : NamedFunction}
    (h : Focus.Leads root frames row) (hitem : row[index]? = some (.call f []))
    (hside : Reached root (Focus.path ⟨frames, row, index⟩) ∨
      Reached root (Focus.path ⟨frames, row, (index + 1 : Nat)⟩)) : False := by
  rcases hside with hbefore | hbehind
  · -- the step into the call finds no fault, but from there none is possible
    have hinside := hbefore.right (Cursor.right_enter h hitem (by rintro t ⟨⟩) rfl)
    exact hsafe.right hinside (Cursor.right_nowhere h hitem trivial)
  · exact hsafe.left hbehind (Cursor.left_behind h hitem trivial)

/-- A call with arguments can be crossed in either direction, through all of them, if everything in
them can be explored once the cursor is there. -/
theorem crossed_call {f : NamedFunction} {args : List Row} (hne : args ≠ [])
    (h : Focus.Leads root frames row) (hitem : row[index]? = some (.call f args))
    (inside : ∀ {slot : Nat} {inner : Row}, args[slot]? = some inner →
      Visited root (⟨row, index, .call f args, slot⟩ :: frames) inner →
      Explored root (⟨row, index, .call f args, slot⟩ :: frames) inner)
    (hside : Reached root (Focus.path ⟨frames, row, index⟩) ∨
      Reached root (Focus.path ⟨frames, row, (index + 1 : Nat)⟩)) :
    Crossed root frames row index ∧ ∀ arg ∈ args, arg.Everywhere Item.OpenHere := by
  obtain ⟨last, hlast⟩ : ∃ last, args.length = last + 1 :=
    Nat.exists_eq_add_one.mpr (List.length_pos_iff.mpr hne)
  have hfirst : args[0]? = some args[0] := List.getElem?_eq_getElem (by omega)
  have hfinal : args[last]? = some args[last] := List.getElem?_eq_getElem (by omega)
  have hcount : ∀ g rows, Item.call f args = .call g rows → rows.length = last + 1 := by
    rintro _ _ ⟨⟩
    exact hlast
  -- from the left the first argument is entered, from the right the last one
  have hexplored : ∀ {slot : Nat} {inner : Row}, args[slot]? = some inner →
      Explored root (⟨row, index, .call f args, slot⟩ :: frames) inner := by
    intro slot inner hslot
    rcases hside with hbefore | hbehind
    · refine explored_args h hitem inside hfirst ⟨0, Nat.zero_le _, ?_⟩ hslot
      exact hbefore.right (Cursor.right_enter h hitem (by rintro t ⟨⟩) Focus.path_inward.symm)
    · refine explored_args h hitem inside hfinal ⟨_, le_rfl, ?_⟩ hslot
      exact hbehind.left (Cursor.left_enter h hitem hfinal hcount
        (fun hcall => absurd rfl (hcall f args)) rfl)
  refine ⟨⟨?_, ?_⟩, fun arg harg => ?_⟩
  · exact ((hexplored hfirst).reached 0 (Nat.zero_le _)).left
      (Cursor.left_leave h hitem hfirst (fun _ _ _ => rfl) rfl)
  · exact ((hexplored hfinal).reached _ le_rfl).right
      (Cursor.right_leave h hitem hfinal hcount rfl)
  · obtain ⟨slot, hslot⟩ := List.mem_iff_getElem?.mp harg
    exact (hexplored hslot).items

/-- Where no edits fail, an item with a place beside it that can be reached can be crossed and
entered. -/
theorem Safe.crosses (hsafe : Safe root) (h : Focus.Leads root frames row)
    (hitem : row[index]? = some item)
    (inside : ∀ {slot : Nat} {inner : Row}, item.slots[slot]? = some inner →
      Visited root (⟨row, index, item, slot⟩ :: frames) inner →
      Explored root (⟨row, index, item, slot⟩ :: frames) inner)
    (hside : Reached root (Focus.path ⟨frames, row, index⟩) ∨
      Reached root (Focus.path ⟨frames, row, (index + 1 : Nat)⟩)) :
    Crossed root frames row index ∧ item.Everywhere Item.OpenHere := by
  cases item with
  | token t => exact ⟨crossed_token h hitem hside, Item.everywhere_token trivial⟩
  | sqrt inner | parentheses inner | power inner =>
    have hslot : [inner][0]? = some inner := rfl
    obtain ⟨hcrossed, hexplored⟩ := crossed_first h hitem (by rintro f args ⟨⟩) hslot
      (inside hslot) hside
    exact ⟨hcrossed, Item.everywhere_iff.mpr ⟨List.cons_ne_nil _ _,
      List.forall_mem_singleton.mpr hexplored.items⟩⟩
  | fraction top bottom =>
    have hslot : [top, bottom][0]? = some top := rfl
    have hslot' : [top, bottom][1]? = some bottom := rfl
    obtain ⟨hcrossed, hexplored⟩ := crossed_first h hitem (by rintro f args ⟨⟩) hslot
      (inside hslot) hside
    -- only from above the cursor comes into the lower part
    obtain ⟨_, hdown, k, hk, rfl⟩ :=
      (Cursor.vertical_down Renderer.ascii h hitem (Nat.zero_le top.length)).exists_ok
    have hexplored' := inside hslot' ⟨k, hk, (hexplored.reached 0 (Nat.zero_le _)).down hdown⟩
    exact ⟨hcrossed, Item.everywhere_iff.mpr ⟨List.cons_ne_nil _ _,
      List.forall_mem_cons.mpr ⟨hexplored.items,
        List.forall_mem_singleton.mpr hexplored'.items⟩⟩⟩
  | call f args =>
    have hne : args ≠ [] := by
      rintro rfl
      exact hsafe.not_beside_empty h hitem hside
    obtain ⟨hcrossed, hargs⟩ := crossed_call hne h hitem inside hside
    exact ⟨hcrossed, Item.everywhere_iff.mpr ⟨hne, hargs⟩⟩

/-- Where no edits fail, a row with a place that can be reached is explored. -/
theorem Safe.explored (hsafe : Safe root) (h : Focus.Leads root frames row)
    (hvisited : Visited root frames row) : Explored root frames row := by
  induction row using Row.induction_inside generalizing frames with
  | inside row ih =>
    obtain ⟨start, hstart, hreached⟩ := hvisited
    have hcrosses : ∀ {index : Nat} {item : Item}, row[index]? = some item →
        (Reached root (Focus.path ⟨frames, row, index⟩) ∨
          Reached root (Focus.path ⟨frames, row, (index + 1 : Nat)⟩)) →
        Crossed root frames row index ∧ item.Everywhere Item.OpenHere :=
      fun {index item} hitem => hsafe.crosses h hitem fun hslot => ih item
        (List.mem_of_getElem? hitem) _ (List.mem_of_getElem? hslot) (h.inward hitem hslot)
    -- on each side of an item there is a place, so all of them can be reached if one can
    have hall : ∀ k < row.length + 1, Reached root (Focus.path ⟨frames, row, (k : Nat)⟩) := by
      refine forall_lt_of_neighbours (fun k hk => ?_) (Nat.lt_succ_of_le hstart) hreached
      have hitem : row[k]? = some row[k] := List.getElem?_eq_getElem (Nat.lt_of_succ_lt_succ hk)
      exact ⟨fun hbefore => (hcrosses hitem (.inl hbefore)).1.2,
        fun hbehind => (hcrosses hitem (.inr hbehind)).1.1⟩
    refine ⟨fun k hk => hall k (Nat.lt_succ_of_le hk), fun item hmem => ?_⟩
    obtain ⟨k, hitem⟩ := List.mem_iff_getElem?.mp hmem
    obtain ⟨hk, -⟩ := List.getElem?_eq_some_iff.mp hitem
    exact (hcrosses hitem (.inl (hall k (Nat.lt_succ_of_lt hk)))).2

end Exploring

/-! ## Loaded rows -/

theorem perform_keeps {P : Item → Prop} {E : Fault → Prop} (hP : Item.Outward P)
    (hopen : ∀ i, P i → i.OpenHere) {edits : List Edit} (h : ∀ edit ∈ edits, edit.Inserts P) :
    Keeps P E (perform edits) :=
  forM_keeps fun edit hedit => Edit.act_keeps hP hopen (h edit hedit)

/-- A row that is loaded without a window can be edited in every way, with the cursor at a place
whatever is done, if and only if every call in it has an argument. -/
theorem loaded_editable_iff {bytes : Bytes} {root : Row} (h : Row.ofBytes? bytes = some root)
    (fileName : String) {s : Session} (hs : s.viewport = none) :
    root.Everywhere Item.OpenHere ↔
      ∀ edits : List Edit, (∀ edit ∈ edits, edit.Inserts Item.OpenHere) →
        Ensures (do load fileName bytes; perform edits) s (fun _ t => t.Placed)
          fun _ _ => False := by
  have hload := load_windowless h fileName hs
  constructor
  · intro hroot edits hedits
    refine hload.bind ?_
    rintro _ _ rfl
    -- edits keep sessions sound, and only the items of the row have to be looked at
    have hsound : Sound Item.OpenHere (fun _ => False) { root } :=
      ⟨hroot, .place (Nat.zero_le _), fun hview => absurd rfl hview⟩
    exact (perform_keeps Item.outward_openHere (fun _ hi => hi) hedits _ hsound).mono
      (fun _ _ ht => ht.placed) fun _ _ hend => hend.2
  · intro hedits
    -- without a window, what fails after loading depends on the row alone
    have hsafe : Safe root := by
      intro edits hinserts
      have hboth := (ensures_bind.mp (hedits edits hinserts)).and hload
      refine (hboth.mono ?_ ?_).elim
      · rintro _ _ ⟨hperform, rfl⟩
        exact hperform.imp fun _ _ _ => trivial
      · rintro _ _ ⟨⟨⟩, -⟩
    exact (hsafe.explored .start ⟨0, Nat.zero_le _, reached_start root⟩).items

/-- The bytes of `gcd(2,3)`. -/
theorem loaded_editable_iff_gcd :
    Row.ofBytes? [1, 5, 3, 2, 1, 0x87, 1, 0x88] = some [.call .gcd [[.digit 2], [.digit 3]]] ∧
      ({} : Session).viewport = none ∧
      Row.Everywhere Item.OpenHere [.call .gcd [[.digit 2], [.digit 3]]] ∧
      ∀ edits : List Edit, (∀ edit ∈ edits, edit.Inserts Item.OpenHere) →
        Ensures (do load "session" [1, 5, 3, 2, 1, 0x87, 1, 0x88]; perform edits) {}
          (fun _ t => t.Placed) fun _ _ => False := by
  have hbytes : Row.ofBytes? [1, 5, 3, 2, 1, 0x87, 1, 0x88] =
      some [.call .gcd [[.digit 2], [.digit 3]]] := by
    have hwritten : Row.toBytes [.call .gcd [[.digit 2], [.digit 3]]] =
        .ok [1, 5, 3, 2, 1, 0x87, 1, 0x88] := rfl
    refine Row.ofBytes?_append ?_ hwritten []
    simp [Item.everywhere_iff, Item.slots, Item.EncodableHere, Item.digit]
  have hdigit : ∀ d, Row.Everywhere Item.OpenHere [.digit d] := fun d =>
    List.forall_mem_singleton.mpr (Item.everywhere_token trivial)
  have hroot : Row.Everywhere Item.OpenHere [.call .gcd [[.digit 2], [.digit 3]]] :=
    List.forall_mem_singleton.mpr (Item.everywhere_iff.mpr ⟨List.cons_ne_nil _ _,
      List.forall_mem_cons.mpr ⟨hdigit 2, List.forall_mem_singleton.mpr (hdigit 3)⟩⟩)
  exact ⟨hbytes, rfl, hroot, (loaded_editable_iff hbytes "session" rfl).mp hroot⟩

/-- A file may hold a call without arguments, and two steps to the right are one too many. -/
theorem loaded_empty_call :
    Row.ofBytes? [1, 5, 1, 0] = some [.call .sine []] ∧
      Id.run ((do load "session" [1, 5, 1, 0]; perform [.right, .right] : Editing Unit).run.run {}) =
        (.error (.breach (.slotOutOfRange 0 "FunctionCall")),
          { root := [.call .sine []], path := [0, 0, 0] }) :=
  ⟨rfl, rfl⟩

end Session
end Mathpad
