import Mathlib.Data.List.GetD
import Mathlib.Data.List.TakeWhile
import Mathpad.Proofs.Operations
import Mathpad.Proofs.Pieces
import Mathpad.Proofs.StoredNumbers
import Mathpad.Proofs.Upgrading

/-!
# What can be typed

Text gives items of a limited kind only: a variable is one letter, and a call has as many
arguments as its function takes. The terms that come from such items have the same
property, and only numbers that can be stored; reduction keeps both.
-/
set_option autoImplicit false

namespace Mathpad

/-- The name of a variable that can be typed: one letter. -/
def IsLetter (name : String) : Prop := ∃ c : Char, c.isAlpha = true ∧ name = String.singleton c

namespace Item

/-- An item is of a kind that can be typed, whatever is inside of it. -/
def TypedHere : Item → Prop
  | token (.var name) => IsLetter name
  | call f args => args.length = f.arity
  | _ => True

/-- An item can be typed. -/
inductive Typed : Item → Prop
  | intro {item : Item} (here : item.TypedHere)
      (inside : ∀ row ∈ item.slots, ∀ i ∈ row, Typed i) : Typed item

theorem Typed.here {item : Item} (h : item.Typed) : item.TypedHere := by
  cases h with
  | intro here _ => exact here

/-- What is inside an item that can be typed can be typed. -/
theorem Typed.inside {item : Item} (h : item.Typed) : ∀ row ∈ item.slots, ∀ i ∈ row, i.Typed := by
  cases h with
  | intro _ inside => exact inside

theorem typed_token {t : Token} (h : (Item.token t).TypedHere) : (Item.token t).Typed :=
  ⟨h, fun row hrow => by cases hrow⟩

/-- An item can be typed if it is of such a kind and all its rows are one that can be. -/
theorem typed_of_row {item : Item} {row : Row} (here : item.TypedHere)
    (hslots : ∀ r ∈ item.slots, r = row) (hrow : ∀ i ∈ row, i.Typed) : item.Typed :=
  ⟨here, fun r hr i hi => hrow i (hslots r hr ▸ hi)⟩

end Item

/-- All items of a row can be typed. -/
def Row.Typed (row : Row) : Prop := ∀ item ∈ row, item.Typed

theorem Row.typed_nil : Row.Typed [] := fun _ hi => nomatch hi

/-- Two rows that can be typed can be typed next to each other. -/
theorem Row.typed_append {row next : Row} (h : row.Typed) (hn : next.Typed) :
    (row ++ next).Typed := by
  intro item hi
  rcases List.mem_append.mp hi with hi | hi
  · exact h item hi
  · exact hn item hi

/-- An item in front of a row can be typed if both can. -/
theorem Row.typed_cons {item : Item} {row : Row} (h : item.Typed) (hr : row.Typed) :
    Row.Typed (item :: row) := by
  intro i hi
  rcases List.mem_cons.mp hi with rfl | hi
  · exact h
  · exact hr i hi

/-! ## Reading gives what can be typed -/

namespace Reader

/-- The items of a finished piece can be typed. -/
def Piece.Typed : Piece → Prop
  | .finished row => row.Typed
  | _ => True

/-- What is read behind a caret can be typed. -/
theorem exponentPiece_typed (total minuses : Nat) (cs : List Char) :
    Meets (exponentPiece total minuses cs) (fun r => r.1.Typed) fun _ => True := by
  match cs with
  | [] => exact trivial
  | c :: cs =>
    rw [exponentPiece]
    by_cases hopen : c = '('
    · rw [if_pos hopen]
      exact (meets_true _).bind fun _ _ => meets_pure.mpr trivial
    rw [if_neg hopen]
    by_cases hnumeral : isNumeral c = true
    · rw [if_pos hnumeral]
      exact trivial
    rw [if_neg hnumeral]
    by_cases hletter : c.isAlpha = true
    · rw [if_pos hletter]
      exact trivial
    · rw [if_neg hletter]
      exact trivial

/-- Letters that name nothing are read as variables, which can be typed. -/
theorem asVariables_typed {name : List Char} (h : ∀ c ∈ name, c.isAlpha = true) (cs : List Char) :
    Meets (namePiece.asVariables name cs) (fun r => r.1.Typed) fun _ => True := by
  intro item hi
  obtain ⟨c, hc, rfl⟩ := List.mem_map.mp hi
  exact Item.typed_token ⟨c, h c hc, rfl⟩

/-- What is read from a name can be typed: a call gets as many arguments as it takes. -/
theorem namePiece_typed (total : Nat) {name : List Char} (h : ∀ c ∈ name, c.isAlpha = true)
    (cs : List Char) : Meets (namePiece total name cs) (fun r => r.1.Typed) fun _ => True := by
  unfold namePiece
  split
  · split
    · exact asVariables_typed h cs
    · refine (meets_true _).bind fun r _ => ?_
      dsimp only
      split <;> exact trivial
  · exact asVariables_typed h cs

/-- No character stands for a variable by itself. -/
theorem ofChar?_ne_var (c : Char) (name : String) : Token.ofChar? c ≠ some (.var name) := by
  unfold Token.ofChar?
  split
  · simp
  · split <;> simp

/-- Every piece that is read can be typed. -/
theorem nextPiece_typed (total : Nat) (c : Char) (cs : List Char) :
    Meets (nextPiece total c cs) (fun r => r.1.Typed) fun _ => True := by
  -- one case for each kind of character that a piece begins with, in the order of the reader
  unfold nextPiece
  by_cases hblank : Text.isBlank c = true
  · rw [if_pos hblank]
    exact fun item hi => by cases hi
  rw [if_neg hblank]
  by_cases hopen : c = '('
  · rw [if_pos hopen]
    exact (meets_true _).bind fun _ _ => meets_pure.mpr trivial
  rw [if_neg hopen]
  by_cases hcaret : c = '^'
  · rw [if_pos hcaret]
    exact exponentPiece_typed _ _ _
  rw [if_neg hcaret]
  by_cases hcomma : c = ','
  · rw [if_pos hcomma]
    exact trivial
  rw [if_neg hcomma]
  by_cases hletter : c.isAlpha = true
  · rw [if_pos hletter]
    refine namePiece_typed total (fun d hd => ?_) _
    rcases List.mem_cons.mp hd with rfl | hd
    · exact hletter
    · exact List.mem_takeWhile_imp hd
  rw [if_neg hletter]
  cases ht : Token.ofChar? c with
  | none => exact trivial
  | some t =>
    intro item hi
    rw [List.mem_singleton.mp hi]
    refine Item.typed_token ?_
    cases t with
    | var name => exact absurd ht (ofChar?_ne_var c name)
    | add | subtract | multiply | divide | point | digit => trivial

/-- The arguments of a call make an item that can be typed. -/
theorem Callee.item_typed {callee : Callee} {args : List Row} (hlen : args.length = callee.arity)
    (h : ∀ row ∈ args, row.Typed) : (callee.item args).Typed := by
  have hget : ∀ k < args.length, (args.getD k []).Typed := by
    intro k hk
    rw [List.getD_eq_getElem _ _ hk]
    exact h _ (List.getElem_mem hk)
  cases callee with
  | sqrt =>
    refine ⟨trivial, fun row hrow => ?_⟩
    rw [List.mem_singleton.mp hrow]
    exact hget 0 (by rw [hlen]; decide)
  | fraction =>
    refine ⟨trivial, fun row hrow => ?_⟩
    rcases List.mem_cons.mp hrow with rfl | hrow
    · exact hget 0 (by rw [hlen]; decide)
    · rw [List.mem_singleton.mp hrow]
      exact hget 1 (by rw [hlen]; decide)
  | function f => exact ⟨hlen, h⟩

/-- Reading promises items that can be typed, whatever the text. -/
theorem promise_typed : Promise (fun _ => True) Row.Typed fun _ => True where
  piece total {c cs} _ := (nextPiece_typed total c cs).imp fun r hr => by
    obtain ⟨p, rest⟩ := r
    refine ⟨?_, trivial⟩
    cases p with
    | finished row => exact hr
    | group | power | call => trivial
  arguments _ _ _ := trivial
  nil := Row.typed_nil
  append := Row.typed_append
  group hrow :=
    Row.typed_cons (Item.typed_of_row trivial (by simp [Item.slots]) hrow) Row.typed_nil
  power minuses {row} hrow := by
    have hsigned : Row.Typed (List.replicate minuses (.token .subtract) ++ row) := by
      refine Row.typed_append (fun item hi => ?_) hrow
      rw [List.eq_of_mem_replicate hi]
      exact Item.typed_token trivial
    exact Row.typed_cons (Item.typed_of_row trivial (by simp [Item.slots]) hsigned) Row.typed_nil
  call callee _ hlen hargs := Row.typed_cons (Callee.item_typed hlen hargs) Row.typed_nil
  input _ := trivial

end Reader

theorem Row.ofText_typed (s : String) : Meets (Row.ofText s) Row.Typed fun _ => True :=
  (meets_true _).bind fun cs _ => Reader.promise_typed.readRow cs.length trivial

end Mathpad
