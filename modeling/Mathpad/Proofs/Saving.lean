import Mathpad.Proofs.Decoding
import Mathpad.Proofs.KeyScripts

/-!
# What was typed can be saved, if its letters fit a byte

Every letter can be typed, but in a file the name of a variable is one byte. So a session that
was typed is saved and read back if and only if the names of its variables are in Latin-1; any
other letter makes saving fail, and nothing else does.
-/
set_option autoImplicit false

namespace Mathpad

open Item (KeyedHere)

/-! ## Letters that fit a byte -/

/-- A name has a byte for each of its characters. -/
def Item.LatinHere : Item → Prop
  | token (.var name) => ∀ c ∈ name.toList, c.toNat < 256
  | _ => True

/-- An item that keys insert has a form in bytes if the letters in it have. -/
theorem Item.KeyedHere.encodableHere {item : Item} (h : item.KeyedHere) (hlatin : item.LatinHere) :
    item.EncodableHere := by
  cases item with
  | token t =>
    cases t with
    | var name =>
      obtain ⟨c, -, rfl⟩ := h
      exact ⟨c, hlatin c (by simp), rfl⟩
    | digit value => exact h
    | _ => trivial
  | call f args =>
    have hcount : args.length = f.arity := h
    show args.length ≤ 255
    rw [hcount]
    cases f <;> decide
  | sqrt | fraction | parentheses | power => trivial

namespace Item

/-- What holds of the items that have bytes, holds of all items of a row that has. -/
theorem itemsBytes_meets {Q : Item → Prop} {E : Fault → Prop} {items : Row}
    (h : ∀ item ∈ items, Meets item.toBytes (fun _ => Q item) E) :
    Meets (itemsBytes items) (fun _ => ∀ item ∈ items, Q item) E := by
  induction items with
  | nil => exact fun _ hi => nomatch hi
  | cons item items ih =>
    rw [itemsBytes]
    refine (h item (by simp)).bind fun bytes hitem => ?_
    refine (ih fun i hi => h i (by simp [hi])).bind fun more hitems => ?_
    exact List.forall_mem_cons.mpr ⟨hitem, hitems⟩

/-- The bytes of arguments are there if those of all items in them are. -/
theorem argsBytes_meets {Q : Item → Prop} {E : Fault → Prop} {rows : List Row}
    (h : ∀ row ∈ rows, ∀ item ∈ row, Meets item.toBytes (fun _ => Q item) E) :
    Meets (argsBytes rows) (fun _ => ∀ row ∈ rows, ∀ item ∈ row, Q item) E := by
  induction rows with
  | nil => exact fun _ hr => nomatch hr
  | cons row rows ih =>
    rw [argsBytes]
    refine (itemsBytes_meets (h row (by simp))).bind fun bytes hrow => ?_
    refine (ih fun r hr => h r (by simp [hr])).bind fun more hrows => ?_
    exact List.forall_mem_cons.mpr ⟨hrow, hrows⟩

/-- Of the items that keys insert only a name can have no bytes. -/
theorem encode_latin {t : Token} (h : (token t).KeyedHere) :
    Meets t.encode (fun _ => (token t).LatinHere) fun f => f = .mishap .notLatin1 := by
  cases t with
  | digit value =>
    obtain ⟨h0, h9⟩ := h
    have hsingle : Bytes.single (Token.zeroCode + value) = .ok _ :=
      if_pos ⟨by rw [Token.zeroCode]; omega, by rw [Token.zeroCode]; omega⟩
    rw [Token.encode, hsingle]
    trivial
  | var name =>
    obtain ⟨c, -, rfl⟩ := h
    by_cases hc : c.toNat < 256
    · rw [Token.encode, Token.nameBytes_singleton hc]
      intro d hd
      rw [String.toList_singleton, List.mem_singleton] at hd
      rwa [hd]
    · have hname : Token.nameBytes (String.singleton c) = .error (.mishap .notLatin1) := by
        rw [Token.nameBytes, String.toList_singleton, List.mapM_cons, if_neg hc, error_bind]
      rw [Token.encode, hname]
      rfl
  | add | subtract | multiply | divide | point => trivial

/-- Where an item that keys insert has bytes, its letters are Latin ones, and otherwise it fails for
a letter that is not. -/
theorem Everywhere.latin {item : Item} (h : item.Everywhere KeyedHere) :
    Meets item.toBytes (fun _ => item.Everywhere LatinHere) fun f => f = .mishap .notLatin1 := by
  induction h with
  | @intro item here _ ih =>
    cases item with
    | token t =>
      rw [toBytes]
      exact (encode_latin here).bind fun p hp => everywhere_token hp
    | sqrt inner | parentheses inner | power inner =>
      rw [toBytes]
      refine (itemsBytes_meets (ih inner (by simp [slots]))).bind fun bytes hinner => ?_
      exact everywhere_iff.mpr ⟨trivial, by simpa [slots, Row.Everywhere] using hinner⟩
    | fraction top bottom =>
      rw [toBytes]
      refine (itemsBytes_meets (ih top (by simp [slots]))).bind fun above htop => ?_
      refine (itemsBytes_meets (ih bottom (by simp [slots]))).bind fun below hbottom => ?_
      exact everywhere_iff.mpr ⟨trivial, by simpa [slots] using ⟨htop, hbottom⟩⟩
    | call f args =>
      have hcount : args.length = f.arity := here
      have hsingle : Bytes.single args.length = .ok (UInt8.ofNat f.arity) := by
        rw [hcount]
        cases f <;> rfl
      rw [toBytes, hsingle, ok_bind]
      exact (argsBytes_meets ih).bind fun bytes hargs => everywhere_iff.mpr ⟨trivial, hargs⟩

end Item

/-- Of what was typed, a row has bytes just if all its names are in Latin-1. -/
theorem Row.toBytes_latin {row : Row} (h : row.Everywhere KeyedHere) :
    Meets row.toBytes (fun _ => row.Everywhere Item.LatinHere) fun f => f = .mishap .notLatin1 :=
  (Item.itemsBytes_meets fun item hi => (h item hi).latin).bind fun _ hrow => hrow

/-! ## Saving and loading -/

namespace Session

/-- Saving gives the bytes of the row, if it has any, and changes nothing. -/
theorem save_run (s : Session) : Id.run (save.run.run s) = (s.root.toBytes, s) := by
  show Id.run ((liftM s.root.toBytes : Editing Bytes).run.run s) = _
  cases s.root.toBytes <;> rfl

/-- Loading what was saved gives the row back, with the cursor at the start. Only a window can
be in the way, and the row is there also then. -/
theorem load_ensures {row : Row} {bytes : Bytes} (h : Row.ofBytes? bytes = some row)
    (fileName : String) (s : Session) :
    Ensures (load fileName bytes) s (fun _ t => t.root = row ∧ t.path = [0])
      fun _ t => t.root = row ∧ t.path = [0] ∧ s.viewport ≠ none := by
  rw [load, h]
  have hshow : Ensures showCursor { s with root := row, path := [0] }
      (fun _ t => t.root = row ∧ t.path = [0] ∧ (t.viewport ≠ none → s.viewport ≠ none))
      fun f t => t = { s with root := row, path := [0] } ∧ s.viewport ≠ none :=
    showCursor_ensures fun hview _ => hview
  refine hshow.mono (fun _ t ht => ⟨ht.1, ht.2.1⟩) ?_
  rintro f t ⟨rfl, hview⟩
  exact ⟨rfl, rfl, hview⟩

/-- A script that runs to its end on an empty session leaves a row that can be saved, and loaded
into any other session, if the names of its variables are all in Latin-1. If they are not then
it cannot be saved. -/
theorem save_load (settings : EvalSettings) (viewport : Option Viewport) (script : String)
    (s : Session) (h : Id.run ((run settings script).run.run { viewport }) = (.ok (), s)) :
    (s.root.Everywhere Item.LatinHere →
      ∃ bytes, Id.run (save.run.run s) = (.ok bytes, s) ∧
        ∀ (fileName : String) (other : Session),
          Ensures (load fileName bytes) other (fun _ t => t.root = s.root ∧ t.path = [0])
            fun _ t => t.root = s.root ∧ t.path = [0] ∧ other.viewport ≠ none) ∧
    (¬s.root.Everywhere Item.LatinHere →
      Id.run (save.run.run s) = (.error (.mishap .notLatin1), s)) := by
  have hempty : Sound KeyedHere (fun _ => True) { viewport } := sound_empty fun _ _ => trivial
  have hrun : Keeps KeyedHere (fun _ => True) (run settings script) :=
    run_keeps (fun _ _ => trivial) script
  have hkeyed : s.root.Everywhere KeyedHere := by
    have hend := hrun.state hempty
    rw [h] at hend
    exact hend.items
  have hlatin := Row.toBytes_latin hkeyed
  rw [save_run]
  constructor
  · intro hnames
    have hencodable : s.root.Everywhere Item.EncodableHere := fun item hi =>
      ((hkeyed item hi).and (hnames item hi)).imp fun _ hboth => hboth.1.encodableHere hboth.2
    obtain ⟨bytes, hbytes⟩ := Row.exists_toBytes hencodable
    refine ⟨bytes, by rw [hbytes], load_ensures ?_⟩
    rw [← Row.ofBytes?_append hencodable hbytes [], List.append_nil]
  · intro hnames
    cases hbytes : s.root.toBytes with
    | ok bytes => exact absurd (hlatin.of_ok hbytes) hnames
    | error f => rw [hlatin.of_error hbytes]

/-- A letter that is no other token is typed as a variable. -/
theorem strike_letter (settings : EvalSettings) {c : Char} (htoken : Token.ofChar? c = none)
    (hletter : Text.isLetter c = true) :
    strike settings (.typed c) = insert (.var (String.singleton c)) := by
  rw [strike, typeText_singleton, htoken]
  exact if_pos hletter

theorem save_load_root :
    ∃ s, Id.run ((run {} "é<sqrt>2").run.run { viewport := none }) = (.ok (), s) ∧
      s.root.Everywhere Item.LatinHere ∧
      ∃ bytes, Id.run (save.run.run s) = (.ok bytes, s) ∧
        ∀ (fileName : String) (other : Session),
          Ensures (load fileName bytes) other (fun _ t => t.root = s.root ∧ t.path = [0])
            fun _ t => t.root = s.root ∧ t.path = [0] ∧ other.viewport ≠ none := by
  have hkeys : Key.ofScript "é<sqrt>2" = [.typed 'é', .named "sqrt", .typed '2'] := by
    decide +kernel
  have hletter : Text.isLetter 'é' = true := by decide +kernel
  have hrun : Id.run ((run {} "é<sqrt>2").run.run { viewport := none }) =
      (.ok (), { root := [.var "é", .sqrt [.digit 2]], path := [1, 0, 1] }) := by
    rw [run, hkeys, List.forM_eq_forM, List.forM_cons, strike_letter {} rfl hletter]
    rfl
  have hnames : Row.Everywhere Item.LatinHere [.var "é", .sqrt [.digit 2]] := by
    have hletters : ∀ c ∈ ['é'], c.toNat < 256 := List.forall_mem_singleton.mpr (by decide)
    have hinner : Row.Everywhere Item.LatinHere [.digit 2] := by
      simpa [Item.digit] using Item.everywhere_token trivial
    have hroot : (Item.sqrt [.digit 2]).Everywhere Item.LatinHere :=
      Item.everywhere_iff.mpr ⟨trivial, by simpa [Item.slots] using hinner⟩
    exact Row.everywhere_cons.mpr ⟨Item.everywhere_token hletters, by simpa using hroot⟩
  exact ⟨_, hrun, hnames, (save_load {} none _ _ hrun).1 hnames⟩

/-- The letter of the circle number can be typed, but not saved. -/
theorem save_greek :
    Id.run ((run {} "π").run.run {}) = (.ok (), { root := [.var "π"], path := [1] }) ∧
      Id.run (save.run.run { root := [.var "π"], path := [1] }) =
        (.error (.mishap .notLatin1), { root := [.var "π"], path := [1] }) := by
  have hkeys : Key.ofScript "π" = [.typed 'π'] := by decide +kernel
  have hletter : Text.isLetter 'π' = true := by decide +kernel
  constructor
  · rw [run, hkeys, List.forM_eq_forM, List.forM_cons, strike_letter {} rfl hletter]
    rfl
  · rw [save_run]
    rfl

end Session
end Mathpad
