import Mathpad.Proofs.Answers
import Mathpad.Proofs.Editing
import Mathpad.Session.Keys

/-!
# Whatever keys are pressed, the cursor is at a place

Keys insert items of a limited kind: a digit is one of the ten, a variable is one letter, and a
call has the arguments that its function takes, so that the cursor can enter it. The result of
an evaluation is shown by digits and signs only. So every key leads from a sound session to a
sound one (`strike_keeps`), and so do all the keys of a script, whatever they are. What can go
wrong is the name of a key, the row as an expression, and arithmetic.
-/
set_option autoImplicit false

namespace Mathpad

/-! ## What keys insert -/

namespace Item

/-- An item is of a kind that keys insert, whatever is inside of it. -/
def KeyedHere : Item → Prop
  | token (.digit value) => 0 ≤ value ∧ value ≤ 9
  | token (.var name) => ∃ c : Char, Text.isLetter c = true ∧ name = String.singleton c
  | call f args => args.length = f.arity
  | _ => True

/-- Which items keys insert does not depend on what is inside them. -/
theorem outward_keyedHere : Outward KeyedHere := by
  intro item rows hlength h
  cases item with
  | token t => exact h
  | call f args => exact hlength.trans h
  | sqrt | parentheses | power =>
    obtain ⟨row, rfl⟩ := List.length_eq_one_iff.mp hlength
    trivial
  | fraction =>
    obtain ⟨top, bottom, rfl⟩ := List.length_eq_two.mp hlength
    trivial

/-- The cursor can enter every item that keys insert. -/
theorem KeyedHere.openHere (item : Item) (h : item.KeyedHere) : item.OpenHere := by
  cases item with
  | token t => trivial
  | call f args =>
    refine List.length_pos_iff.mp (?_ : 0 < args.length)
    rw [show args.length = f.arity from h]
    cases f <;> decide
  | sqrt | fraction | parentheses | power => exact List.cons_ne_nil _ _

/-- Calls that keys insert have as many arguments as their function takes. -/
theorem KeyedHere.completeHere (item : Item) (h : item.KeyedHere) : item.CompleteHere := by
  cases item with
  | call f args => exact h
  | token | sqrt | fraction | parentheses | power => trivial

end Item

open Item (KeyedHere)

/-- A token that is typed as one character is of a kind that keys insert. -/
theorem Token.ofChar?_keyed {c : Char} {t : Token} (h : ofChar? c = some t) :
    (Item.token t).KeyedHere := by
  unfold ofChar? at h
  split at h
  · next hdigit =>
    have hcode := Text.toNat_of_isDigit hdigit
    cases h
    show (0 : Int) ≤ c.toNat - 48 ∧ (c.toNat : Int) - 48 ≤ 9
    omega
  · split at h <;> cases h <;> trivial

/-- A number is shown by tokens that have a character of their own. -/
theorem Row.ofNumber_keyed (x : Number) : (ofNumber x).Everywhere KeyedHere := by
  have hchars : ∀ cs, (ofChars cs).Everywhere KeyedHere := by
    intro cs item hitem
    obtain ⟨t, ht, rfl⟩ := List.mem_map.mp hitem
    obtain ⟨c, -, hc⟩ := List.mem_filterMap.mp ht
    exact Item.everywhere_token (Token.ofChar?_keyed hc)
  cases x with
  | decimal v a => exact hchars _
  | ratio n d =>
    rw [ofNumber]
    split
    · exact hchars _
    · refine Row.everywhere_cons.mpr ⟨Item.everywhere_iff.mpr ⟨trivial, fun row hrow => ?_⟩,
        Row.everywhere_nil⟩
      rcases List.mem_pair.mp hrow with rfl | rfl
      · exact hchars _
      · exact hchars _

/-- What a key inserts is empty: there are as many rows as it needs, with nothing in them. -/
theorem Key.item?_keyed {name : String} {item : Item} (h : item? name = some item) :
    item.Everywhere KeyedHere := by
  have hempty : ∀ {item : Item}, item.KeyedHere → (∀ row ∈ item.slots, row = []) →
      item.Everywhere KeyedHere := by
    intro item hhere hslots
    refine Item.everywhere_iff.mpr ⟨hhere, fun row hrow => ?_⟩
    rw [hslots row hrow]
    exact Row.everywhere_nil
  unfold item? at h
  split at h
  · cases h
    exact hempty trivial (by simp [Item.slots])
  · cases h
    exact hempty trivial (by simp [Item.slots])
  · cases h
    exact hempty trivial (by simp [Item.slots])
  · cases h
    exact hempty trivial (by simp [Item.slots])
  · obtain ⟨f, -, rfl⟩ := Option.map_eq_some_iff.mp h
    exact hempty List.length_replicate fun row hrow => List.eq_of_mem_replicate hrow

/-! ## Keys -/

/-- What a key may fail with: a fault that is the user's, or in floating point an infinite
angle. -/
def EvalSettings.Allows (settings : EvalSettings) (f : Fault) : Prop :=
  f.IsGuarded ∨ settings.useFloats = true ∧ f = .mishap .notANumber

/-- A fault of evaluation is one that a key may have. -/
theorem EvalSettings.Admits.allows {settings : EvalSettings} {f : Fault} (h : settings.Admits f) :
    settings.Allows f :=
  h.imp_left fun hmaths => .inr (.inr hmaths)

namespace Session

variable {E : Fault → Prop} {s : Session} {settings : EvalSettings}

/-- Inserting an item that keys insert keeps the kind of items. -/
theorem insert_keyed {item : Item} (h : item.Everywhere KeyedHere) :
    Keeps KeyedHere E (insert item) :=
  insert_keeps Item.outward_keyedHere Item.KeyedHere.openHere h

/-- A character is typed as a token or as the name of a variable, or it cannot be typed. -/
theorem typeText_singleton (c : Char) :
    typeText (String.singleton c) =
      match Token.ofChar? c with
      | some t => insert (.token t)
      | none =>
        if Text.isLetter c = true then insert (.var (String.singleton c))
        else throw (.input (.cannotType (String.singleton c))) := by
  have htoken : Token.ofText? (String.singleton c) = Token.ofChar? c := by
    rw [Token.ofText?, String.toList_singleton]
  rw [typeText, htoken]
  cases Token.ofChar? c with
  | some t => rfl
  | none => simp

/-- Typing a character keeps the kind of items, or the character cannot be typed. -/
theorem typeText_keeps (hE : ∀ f, f.IsInput → E f) (c : Char) :
    Keeps KeyedHere E (typeText (String.singleton c)) := by
  rw [typeText_singleton]
  cases ht : Token.ofChar? c with
  | some t => exact insert_keyed (Item.everywhere_token (Token.ofChar?_keyed ht))
  | none =>
    dsimp only
    by_cases hletter : Text.isLetter c = true
    · rw [if_pos hletter]
      exact insert_keyed (Item.everywhere_token ⟨c, hletter, rfl⟩)
    · rw [if_neg hletter]
      exact keeps_throw (hE _ ⟨_, rfl⟩)

/-- Evaluation changes nothing. -/
theorem evaluate_ensures (settings : EvalSettings) (h : s.root.Everywhere Item.CompleteHere) :
    Ensures (evaluate settings) s (fun x t => t = s ∧ x.Lowest)
      fun f t => t = s ∧ settings.Allows f := by
  have hexpression : Ensures expression s (fun e t => t = s ∧ e.Readable)
      fun f t => t = s ∧ settings.Allows f := by
    refine ensures_get (ensures_lift.mpr ((understood s.root).mono (fun e he => ?_) ?_))
    · exact ⟨rfl, he.readable h⟩
    · rintro _ ⟨k, rfl, -⟩
      exact ⟨rfl, .inl (.inr (.inl ⟨k, rfl⟩))⟩
  refine hexpression.bind ?_
  rintro e t ⟨rfl, he⟩
  exact ensures_lift.mpr ((he.eval_lowest settings).mono (fun _ hx => ⟨rfl, hx⟩) fun f hf =>
    ⟨rfl, hf.allows⟩)

/-- The value of a row is shown in place of it. -/
theorem replaceWithResult_keeps (hE : ∀ f, settings.Allows f → E f) :
    Keeps KeyedHere E (replaceWithResult settings) := by
  intro s h
  have hevaluate := evaluate_ensures settings (h.items.imp Item.KeyedHere.completeHere)
  refine Ensures.bind (hevaluate.mono (fun _ t ht => ht) ?_) ?_
  · rintro f t ⟨rfl, hf⟩
    exact ⟨h, hE f hf⟩
  · rintro x t ⟨rfl, -⟩
    have hkeeps : Keeps KeyedHere E (replaceAll (Row.ofNumber x.denoise)
        (Row.ofNumber x.denoise).length) :=
      replaceAll_keeps (Row.ofNumber_keyed _) (le_refl _)
    exact (hkeeps t h).bind fun _ u hu => ensures_pure.mpr hu

/-- Every key leads from a sound session to a sound one. -/
theorem strike_keeps (hE : ∀ f, settings.Allows f → E f) (key : Key) :
    Keeps KeyedHere E (strike settings key) := by
  have hopen := Item.KeyedHere.openHere
  have hinput : ∀ f : Fault, f.IsInput → E f := fun f hf => hE f (.inl (.inl hf))
  have hdiscard : ∀ {α : Type} {m : Editing α}, Keeps KeyedHere E m →
      Keeps KeyedHere E (discard m) := fun hm s h => (hm s h).bind fun _ t ht => ensures_pure.mpr ht
  cases key with
  | typed c => exact typeText_keeps hinput c
  | named name =>
    rw [strike]
    unfold press
    split
    · exact moveLeft_keeps hopen
    · exact moveRight_keeps hopen
    · exact hdiscard (moveVertically_keeps .up)
    · exact hdiscard (moveVertically_keeps .down)
    · exact delete_keeps Item.outward_keyedHere hopen
    · exact clear_keeps
    · exact hdiscard (replaceWithResult_keeps hE)
    · cases hitem : Key.item? name with
      | some item => exact insert_keyed (Key.item?_keyed hitem)
      | none => exact keeps_throw (hinput _ ⟨_, rfl⟩)

/-! ## Many keys -/

/-- The state that is left, whether or not the action failed. -/
theorem Keeps.state {P : Item → Prop} {α : Type} {m : Editing α} (hm : Keeps P E m)
    (h : s.Sound P E) : (Id.run (m.run.run s)).2.Sound P E := by
  have hkept := hm s h
  unfold Ensures at hkept
  rcases hend : Id.run (m.run.run s) with ⟨f | a, t⟩
  · rw [hend] at hkept
    exact hkept.1
  · rw [hend] at hkept
    exact hkept

/-- A script keeps the kind of items, as its keys do. -/
theorem run_keeps (hE : ∀ f, settings.Allows f → E f) (script : String) :
    Keeps KeyedHere E (run settings script) :=
  forM_keeps fun key _ => strike_keeps hE key

theorem sound_empty {v : Option Viewport} (hE : v ≠ none → ∀ f, E f) :
    Sound KeyedHere E { viewport := v } :=
  ⟨Row.everywhere_nil, .place (le_refl 0), hE⟩

/-- The session after some keys on an empty one without a window, each of them pressed whether or
not the ones before it have failed. -/
def after (settings : EvalSettings) (keys : List Key) : Session :=
  keys.foldl (fun s key => (Id.run ((strike settings key).run.run s)).2) {}

/-- After any keys the session is sound, as none of them makes it less so. -/
theorem after_sound (hE : ∀ f, settings.Allows f → E f) (keys : List Key) :
    (after settings keys).Sound KeyedHere E := by
  have hfrom : ∀ s : Session, s.Sound KeyedHere E →
      (keys.foldl (fun s key => (Id.run ((strike settings key).run.run s)).2) s).Sound
        KeyedHere E := by
    induction keys with
    | nil => exact fun s hs => hs
    | cons key keys ih => exact fun s hs => ih _ ((strike_keeps hE key).state hs)
  exact hfrom {} (sound_empty fun h => absurd rfl h)

/-- The path has an odd number of indexes and leads to a place of the row. -/
def Placed (s : Session) : Prop := Odd s.path.length ∧ s.path.Addresses s.root

/-- A sound session is at a place, and the path to a place has an odd number of indexes. -/
theorem Sound.placed {P : Item → Prop} (h : s.Sound P E) : s.Placed := ⟨h.cursor.odd_length, h.cursor⟩

/-- Whatever keys are pressed on an empty session, the cursor is at a place of the row. Another
key leaves it at a place too, and so does every script; they can fail only because of the name of
a key, the row as an expression or arithmetic. -/
theorem placed_after (settings : EvalSettings) (keys : List Key) :
    (after settings keys).Placed ∧
      (∀ key, Ensures (strike settings key) (after settings keys) (fun _ t => t.Placed)
        fun f t => t.Placed ∧ settings.Allows f) ∧
      ∀ script, Ensures (run settings script) {} (fun _ t => t.Placed)
        fun f t => t.Placed ∧ settings.Allows f := by
  have hafter : (after settings keys).Sound KeyedHere settings.Allows :=
    after_sound (fun _ hf => hf) keys
  have hempty : Sound KeyedHere settings.Allows {} := sound_empty fun h => absurd rfl h
  refine ⟨hafter.placed, fun key => ?_, fun script => ?_⟩
  · exact (strike_keeps (fun _ hf => hf) key _ hafter).mono (fun _ _ ht => ht.placed)
      fun _ _ ⟨ht, hf⟩ => ⟨ht.placed, hf⟩
  · exact (run_keeps (fun _ hf => hf) script _ hempty).mono (fun _ _ ht => ht.placed)
      fun _ _ ⟨ht, hf⟩ => ⟨ht.placed, hf⟩

end Session
end Mathpad
