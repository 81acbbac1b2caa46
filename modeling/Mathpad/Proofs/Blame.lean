import Mathpad.Proofs.Answers
import Mathpad.Proofs.Editing
import Mathpad.Proofs.GlyphCounts

/-!
# Nothing that the cursor does is the user's fault

Text, rows that are no expression and arithmetic are for the user to mend. A path that leads nowhere and a
window that is too small are not: moving the cursor, changing the row and showing the cursor fail for
reasons of the program's own, from whatever session they start, be its path one that can be followed or
not.
-/
set_option autoImplicit false

namespace Mathpad

variable {σ α β : Type}

/-! ## Computations and actions -/

/-- A breach is a fault of the program, so nobody who types can mend it. -/
theorem Fault.not_isGuarded_breach (e : Breach) : ¬(Fault.breach e).IsGuarded := by
  rintro (⟨_, ⟨⟩⟩ | ⟨_, ⟨⟩⟩ | ⟨_, ⟨⟩⟩)

/-- A mishap is a fault of the program, so nobody who types can mend it. -/
theorem Fault.not_isGuarded_mishap (e : Mishap) : ¬(Fault.mishap e).IsGuarded := by
  rintro (⟨_, ⟨⟩⟩ | ⟨_, ⟨⟩⟩ | ⟨_, ⟨⟩⟩)

/-- The user is not to blame for any fault of the computation. -/
def Blameless (o : Outcome α) : Prop := Meets o (fun _ => True) fun f => ¬f.IsGuarded

theorem Blameless.bind {o : Outcome α} {k : α → Outcome β} (ho : Blameless o)
    (hk : ∀ a, Blameless (k a)) : Blameless (o >>= k) :=
  Meets.bind ho fun a _ => hk a

theorem blameless_ok (a : α) : Blameless (.ok a) := trivial

theorem blameless_breach (e : Breach) : Blameless (.error (.breach e) : Outcome α) :=
  Fault.not_isGuarded_breach e

theorem blameless_mishap (e : Mishap) : Blameless (.error (.mishap e) : Outcome α) :=
  Fault.not_isGuarded_mishap e

/-- The user is not to blame for any fault of the action, from whatever state. -/
def ActsBlameless (m : ExceptT Fault (StateM σ) α) : Prop :=
  ∀ s, Ensures m s (fun _ _ => True) fun f _ => ¬f.IsGuarded

theorem ActsBlameless.bind {m : ExceptT Fault (StateM σ) α} {k : α → ExceptT Fault (StateM σ) β}
    (hm : ActsBlameless m) (hk : ∀ a, ActsBlameless (k a)) : ActsBlameless (m >>= k) :=
  fun s => (hm s).bind fun a t _ => hk a t

/-- Within an action a computation fails as it does on its own. -/
theorem Blameless.acts {o : Outcome α} (h : Blameless o) :
    ActsBlameless (liftM o : ExceptT Fault (StateM σ) α) :=
  fun _ => ensures_lift.mpr h

theorem actsBlameless_pure (a : α) : ActsBlameless (pure a : ExceptT Fault (StateM σ) α) :=
  fun _ => trivial

theorem actsBlameless_get : ActsBlameless (get : ExceptT Fault (StateM σ) σ) := fun _ => trivial

theorem actsBlameless_set (t : σ) : ActsBlameless (set t : ExceptT Fault (StateM σ) PUnit) :=
  fun _ => trivial

theorem actsBlameless_modify (f : σ → σ) :
    ActsBlameless (modify f : ExceptT Fault (StateM σ) PUnit) :=
  fun _ => trivial

/-! ## Places and paths -/

namespace Place

variable (xs : List α) (place : Int)

/-- A place outside a list is a mishap of whoever looks there. -/
theorem get_blameless : Blameless (get xs place) := by
  unfold get
  split
  · exact blameless_ok _
  · exact blameless_mishap _

theorem erase_blameless : Blameless (erase xs place) := by
  unfold erase
  split
  · exact blameless_ok _
  · exact blameless_mishap _

theorem replace_blameless (x : α) : Blameless (replace xs place x) := by
  unfold replace
  split
  · exact blameless_ok _
  · exact blameless_mishap _

end Place

namespace Path

/-- The last step of a path can be moved, unless there is none or it would go below zero; neither is
typed by anybody. -/
theorem shift_blameless (p : Path) (n : Int) : Blameless (p.shift n) := by
  unfold shift
  split
  · exact blameless_mishap _
  · split
    · exact blameless_breach _
    · exact blameless_ok _

theorem split_blameless (p : Path) : Blameless p.split := by
  cases p with
  | nil => exact blameless_mishap _
  | cons i rest => exact blameless_ok _

/-- A path that ends at a call does not say in which argument, which is a mishap of whoever made it.
-/
theorem intoSlot_blameless (path : Option Path) (slot : Int) : Blameless (intoSlot path slot) := by
  cases path with
  | none => exact blameless_ok _
  | some p => exact p.split_blameless.bind fun _ => blameless_ok _

theorem intoFraction_blameless (path : Option Path) : Blameless (intoFraction path) := by
  cases path with
  | none => exact blameless_ok _
  | some p =>
    refine p.split_blameless.bind fun step => ?_
    obtain ⟨i, rest⟩ := step
    dsimp only
    split
    · exact blameless_ok _
    · split
      · exact blameless_ok _
      · exact blameless_breach _

/-- A path into a row is one that ends there, one that goes on in an item of it, or one that leads
nowhere. -/
theorem target_blameless (path : Option Path) (length : Nat) : Blameless (target path length) := by
  unfold target
  split
  · exact blameless_ok _
  · exact blameless_ok _
  · next p _ =>
    refine p.split_blameless.bind fun step => ?_
    obtain ⟨i, rest⟩ := step
    dsimp only
    split
    · exact blameless_ok _
    · split
      · exact blameless_ok _
      · exact blameless_mishap _

end Path

namespace Focus

theorem slot_blameless (item : Item) (i : Int) : Blameless (item.slot i) := by
  unfold Item.slot
  split
  · exact blameless_breach _
  · split
    · exact blameless_breach _
    · exact Place.get_blameless _ _

/-- A path is followed as far as it leads; where it leads nowhere, whoever made it is to blame. -/
theorem follow_blameless (frames : List Frame) (row : Row) (path : Path) :
    Blameless (follow frames row path) := by
  fun_induction follow frames row path with
  | case1 => exact blameless_mishap _
  | case2 => exact blameless_ok _
  | case3 => exact blameless_breach _
  | case4 frames row i j rest _ _ ih =>
    refine (Place.get_blameless row i).bind fun item => ?_
    split
    · exact blameless_breach _
    · exact (slot_blameless item j).bind fun inner => ih item inner

theorem ofPath_blameless (root : Row) (path : Path) : Blameless (ofPath root path) :=
  follow_blameless [] root path

/-- The row around a focus is put together again from the rows that were passed on the way. -/
theorem rebuild_blameless (f : Focus) (row : Row) : Blameless (f.rebuild row) := by
  refine (Meets.foldlM (fun _ _ => True) (fun frame _ inner _ => ?_) f.frames trivial).imp fun _ _ => trivial
  exact (Place.replace_blameless _ _ _).bind fun _ => Place.replace_blameless _ _ _

end Focus

/-! ## Showing the cursor -/

namespace Block

variable (r : Renderer) (level : Int)

/-- The cursor is drawn beside a block of the row, or a mishap says that there is no such block. -/
theorem besideCursor_blameless (bs : List Block) (place : Int) :
    Blameless (besideCursor r level bs place) := by
  unfold besideCursor
  split
  · exact blameless_ok _
  split
  · exact Place.get_blameless _ _
  split
  · exact Place.get_blameless _ _
  · exact (Place.get_blameless _ _).bind fun _ => (Place.get_blameless _ _).bind fun _ => blameless_ok _

theorem ofItemBlocks_blameless (target : Path.Target) (bs : List Block) :
    Blameless (ofItemBlocks r level target bs) := by
  have hcursor : Blameless (withCursor r level target bs) := by
    cases target with
    | nowhere | into => exact blameless_ok _
    | cursor place => exact (besideCursor_blameless r level bs place).bind fun _ => blameless_ok _
  refine hcursor.bind fun bs => ?_
  cases bs <;> exact blameless_ok _

variable {level}

/-- A row of items is laid out without blame if each item is, since all else is choosing the path
for the next. -/
theorem ofItems_blameless {items : List Item}
    (h : ∀ item ∈ items, ∀ path, Blameless (ofItem r level path item)) (target : Path.Target)
    (index : Nat) : Blameless (ofItems r level target index items) := by
  induction items generalizing index with
  | nil => exact blameless_ok _
  | cons item items ih =>
    obtain ⟨hitem, hitems⟩ := List.forall_mem_cons.mp h
    exact (hitem _).bind fun _ => (ih hitems _).bind fun _ => blameless_ok _

/-- The arguments of a call are laid out without blame if each of them is. -/
theorem ofArgs_blameless {args : List Row}
    (h : ∀ row ∈ args, ∀ path, Blameless (ofRow r level path row)) (path : Option Path)
    (slot : Nat) : Blameless (ofArgs r level path slot args) := by
  induction args generalizing slot with
  | nil => exact blameless_ok _
  | cons arg args ih =>
    obtain ⟨harg, hargs⟩ := List.forall_mem_cons.mp h
    rw [ofArgs_cons]
    exact (Path.intoSlot_blameless path slot).bind fun inside => (harg inside).bind fun _ =>
      (ih hargs _).bind fun _ => blameless_ok _

/-- An item is laid out without blame if the rows inside it are: following the path into them is all
it adds. -/
theorem ofItem_blameless {item : Item}
    (h : ∀ inner ∈ item.slots, ∀ level path, Blameless (ofRow r level path inner)) (path : Option Path) :
    Blameless (ofItem r level path item) := by
  have hinto := Path.intoSlot_blameless path 0
  -- only the rows inside and the way into them can be to blame
  cases item with
  | token t => exact blameless_ok _
  | sqrt inner =>
    rw [ofItem_sqrt]
    exact hinto.bind fun inside => (h inner (by simp [Item.slots]) _ inside).bind fun _ => blameless_ok _
  | parentheses inner =>
    rw [ofItem_parentheses]
    exact hinto.bind fun inside => (h inner (by simp [Item.slots]) _ inside).bind fun _ => blameless_ok _
  | power exponent =>
    rw [ofItem_power]
    exact hinto.bind fun inside => (h exponent (by simp [Item.slots]) _ inside).bind fun _ =>
      blameless_ok _
  | fraction top bottom =>
    rw [ofItem_fraction]
    exact (Path.intoFraction_blameless path).bind fun parts =>
      (h top (by simp [Item.slots]) _ parts.1).bind fun _ =>
        (h bottom (by simp [Item.slots]) _ parts.2).bind fun _ => blameless_ok _
  | call f args =>
    rw [Block.ofItem]
    exact (ofArgs_blameless r (fun row hrow path => h row hrow level path) path 0).bind fun _ =>
      blameless_ok _

/-- Laying out a row fails because of the path only. -/
theorem ofRow_blameless (row : Row) (level : Int) (path : Option Path) :
    Blameless (ofRow r level path row) := by
  induction row using Row.induction_inside generalizing level path with
  | inside row ih =>
    refine (Path.target_blameless path row.length).bind fun target => ?_
    have hitem : ∀ item ∈ row, ∀ path, Blameless (ofItem r level path item) :=
      fun item hi => ofItem_blameless r (ih item hi)
    exact (ofItems_blameless r hitem target 0).bind fun bs =>
      ofItemBlocks_blameless r level target bs

/-- The cursor is looked for among the glyphs of a block. That there is none is a mishap of the
layout. -/
theorem cursorVisibility_blameless (b : Block) (viewport : Option Viewport) :
    Blameless (b.cursorVisibility viewport) := by
  unfold cursorVisibility
  split
  · exact blameless_ok _
  · exact blameless_breach _

end Block

/-! ## Moving -/

namespace Cursor

theorem shift_blameless (n : Int) : ActsBlameless (shift n) :=
  actsBlameless_get.bind fun p => (p.shift_blameless n).acts.bind fun _ => actsBlameless_set _

theorem leave_blameless : ActsBlameless leave :=
  (actsBlameless_modify _).bind fun _ => shift_blameless 1

/-- A step to the right reads the item it steps over or into, and every fault of it is about the
path. -/
theorem right_blameless (root : Row) : ActsBlameless (right root) := by
  refine actsBlameless_get.bind fun p => (Focus.ofPath_blameless root p).acts.bind fun focus => ?_
  split
  · split
    · exact actsBlameless_pure _
    · split
      · exact actsBlameless_modify _
      · exact leave_blameless
    · exact leave_blameless
  · refine (Place.get_blameless _ _).acts.bind fun item => ?_
    split
    · exact shift_blameless 1
    · exact actsBlameless_modify _

/-- Entering an item from the right ends behind the last item of its last slot. -/
theorem enterFromRight_blameless (item : Item) : ActsBlameless (enterFromRight item) := by
  have hfirst : ActsBlameless (do
      let first ← liftM (Place.get item.slots 0)
      modify fun p => (Path.push p 0).push first.length : Moving Unit) :=
    (Place.get_blameless _ _).acts.bind fun _ => actsBlameless_modify _
  cases item with
  | token t => exact actsBlameless_pure _
  | call f args =>
    exact (actsBlameless_modify _).bind fun _ => (Place.get_blameless _ _).acts.bind fun _ =>
      actsBlameless_modify _
  | sqrt | fraction | parentheses | power => exact hfirst

/-- A step to the left reads the item in front of the cursor, and every fault of it is about the
path. -/
theorem left_blameless (root : Row) : ActsBlameless (left root) := by
  refine actsBlameless_get.bind fun p => (Focus.ofPath_blameless root p).acts.bind fun focus => ?_
  split
  · split
    · exact actsBlameless_pure _
    · split
      · exact (Place.get_blameless _ _).acts.bind fun _ => actsBlameless_modify _
      · exact actsBlameless_modify _
    · exact actsBlameless_modify _
  · exact (shift_blameless (-1)).bind fun _ => (Place.get_blameless _ _).acts.bind fun item =>
      enterFromRight_blameless item

variable (r : Renderer)

theorem matchPlaces_blameless (source target : Row) : Blameless (matchPlaces r source target) :=
  (matchPlaces_meets r source target).mono (fun _ _ => trivial) fun _ => False.elim

/-- The search for a part above or below goes outwards along the path and reads the items on the
way. -/
theorem findVertical_blameless (direction : Direction) (path : Path) (frames : List Frame)
    (place : Int) (depth : Nat) : Blameless (findVertical r direction path frames place depth) := by
  induction frames generalizing place depth with
  | nil => exact blameless_ok _
  | cons frame frames ih =>
    obtain ⟨row, outer, item, slot⟩ := frame
    cases item with
    | fraction top bottom =>
      have hmatch : ∀ source target, Blameless (do
          let places ← matchPlaces r source target
          let target ← Place.get places place
          return some (((path.pop (2 * depth + 2)).push direction.target).push target)) :=
        fun source target => (matchPlaces_blameless r source target).bind fun places =>
          (Place.get_blameless places place).bind fun _ => blameless_ok _
      rw [findVertical]
      split
      · cases direction with
        | up => exact hmatch bottom top
        | down => exact hmatch top bottom
      · exact ih outer (depth + 1)
    | token | sqrt | parentheses | power | call => exact ih outer (depth + 1)

/-- A step up or down is the search, and the place in the row that is found. -/
theorem vertical_blameless (direction : Direction) (root : Row) (path : Path) :
    Blameless (vertical r direction root path) :=
  (Focus.ofPath_blameless root path).bind fun focus =>
    findVertical_blameless r direction path focus.frames focus.place 0

end Cursor

/-! ## Editing -/

namespace Session

/-- One step of scrolling ends with an offset, or with the fault that the window is too small: a
breach. -/
theorem scrolled_blameless (offset : Point) (seen : Visibility) : Blameless (scrolled offset seen) := by
  unfold scrolled
  split
  · exact blameless_breach _
  · split
    · exact blameless_breach _
    · exact blameless_ok _

/-- The session is drawn and scrolled, and all faults of that are about the path or the window. -/
theorem showCursor_blameless : ActsBlameless showCursor := by
  refine actsBlameless_get.bind fun s => ?_
  split
  · exact actsBlameless_pure _
  · refine (Block.ofRow_blameless _ _ _ _).acts.bind fun block => ?_
    refine (block.cursorVisibility_blameless _).acts.bind fun seen => ?_
    split
    · exact (scrolled_blameless _ _).acts.bind fun _ => actsBlameless_set _
    · exact actsBlameless_pure _

theorem goTo_blameless (path : Path) : ActsBlameless (goTo path) :=
  (actsBlameless_modify _).bind fun _ => showCursor_blameless

/-- A movement of the cursor is followed by showing it, so a movement is as blameless as it is by
itself. -/
theorem move_blameless {movement : Cursor.Moving Unit} (h : ActsBlameless movement) :
    ActsBlameless (move movement) := by
  refine actsBlameless_get.bind fun s => ?_
  have hmove := h s.path
  unfold Ensures at hmove
  rcases hend : Id.run (movement.run.run s.path) with ⟨result, path⟩
  rw [hend] at hmove
  have hresult : Blameless result := by
    cases result with
    | ok a => exact blameless_ok a
    | error f => exact hmove
  exact (actsBlameless_set _).bind fun _ => hresult.acts.bind fun _ => showCursor_blameless

theorem moveRight_blameless : ActsBlameless moveRight :=
  actsBlameless_get.bind fun s => move_blameless (Cursor.right_blameless s.root)

theorem moveLeft_blameless : ActsBlameless moveLeft :=
  actsBlameless_get.bind fun s => move_blameless (Cursor.left_blameless s.root)

theorem moveVertically_blameless (direction : Cursor.Direction) :
    ActsBlameless (moveVertically direction) :=
  actsBlameless_get.bind fun s => (Cursor.vertical_blameless _ direction s.root s.path).acts.bind
    fun target => (goTo_blameless (target.getD s.path)).bind fun _ => actsBlameless_pure _

/-- An insertion changes a row that the path leads to and steps behind what it put there. -/
theorem insert_blameless (item : Item) : ActsBlameless (insert item) := by
  refine actsBlameless_get.bind fun s => (Focus.ofPath_blameless s.root s.path).acts.bind fun focus => ?_
  refine (focus.rebuild_blameless _).acts.bind fun root => (actsBlameless_set _).bind fun _ => ?_
  cases item with
  | token t => exact (s.path.shift_blameless 1).acts.bind fun path => goTo_blameless path
  | sqrt | fraction | parentheses | power | call => exact goTo_blameless _

/-- Deleting steps to the left until an item can be taken out, however many steps that takes. -/
theorem deleteWithin_blameless (moves : Nat) : ActsBlameless (deleteWithin moves) := by
  induction moves with
  | zero => exact fun _ => Fault.not_isGuarded_mishap _
  | succ moves ih =>
    refine actsBlameless_get.bind fun s => (Focus.ofPath_blameless s.root s.path).acts.bind fun focus => ?_
    split
    · refine (Place.erase_blameless _ _).acts.bind fun shorter => ?_
      refine (focus.rebuild_blameless _).acts.bind fun root => (actsBlameless_set _).bind fun _ => ?_
      exact (s.path.shift_blameless (-1)).acts.bind fun path => goTo_blameless path
    · split
      · exact showCursor_blameless
      · exact moveRight_blameless.bind fun _ => ih.bind fun _ => showCursor_blameless

theorem delete_blameless : ActsBlameless delete :=
  actsBlameless_get.bind fun s => deleteWithin_blameless (s.root.places + 1)

theorem clear_blameless : ActsBlameless clear := actsBlameless_modify _

theorem replaceAll_blameless (root : Row) (place : Int) : ActsBlameless (replaceAll root place) :=
  (actsBlameless_modify _).bind fun _ => goTo_blameless [place]

end Session

end Mathpad
