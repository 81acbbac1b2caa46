import Mathlib.Algebra.Order.BigOperators.Group.List
import Mathlib.Algebra.Order.Group.Nat
import Mathpad.Item.Reader
import Mathpad.Proofs.Outcome

/-!
# Reading piece by piece

A text is read as the items of its first piece followed by those of the rest. What a piece
leaves to be read inside of it is shorter than the text it was taken from, so what is shown for
single pieces holds for all texts (`Promise.readRow`).
-/
set_option autoImplicit false

namespace Mathpad

namespace Reader

/-! ## The items of a piece -/

namespace Piece

/-- The text inside of a piece that is left to be read. -/
def text : Piece → List Char
  | finished _ => []
  | group inner | power _ inner | call _ inner => inner

theorem length_text_le (p : Piece) : p.text.length ≤ p.pending := by
  cases p <;> simp [text, pending]

/-- The call that a piece is, if it is one. -/
def called : Piece → List (Callee × List Char)
  | call callee inner => [(callee, inner)]
  | _ => []

/-- The items that a piece stands for. That an exponent is empty is reported for the place `stop`. -/
def items (stop : Nat) : Piece → Outcome Row
  | finished row => .ok row
  | group inner => do
    let row ← readRow inner.length inner
    return [.parentheses row]
  | power minuses exponent => do
    match ← readRow exponent.length exponent with
    | [] => .error (.input (.emptyExponent stop))
    | row => return [.power (List.replicate minuses (.token .subtract) ++ row)]
  | call callee inner => do
    let texts := Brackets.arguments inner
    if texts.length ≠ callee.arity then
      .error (.input (.argumentCount callee.name callee.arity texts.length))
    else
      let args ← readRows texts
      return [callee.item args]

end Piece

/-! ## Rows -/

/-- The kind of piece at the start decides how the reading goes on. -/
theorem readRow_cons {total : Nat} {c : Char} {cs rest : List Char} {p : Piece}
    (h : nextPiece total c cs = .ok (p, rest)) :
    readRow total (c :: cs) = match p with
      | .finished row => do return row ++ (← readRow total rest)
      | .group inner => do
        let row ← readRow inner.length inner
        return .parentheses row :: (← readRow total rest)
      | .power minuses exponent => do
        match ← readRow exponent.length exponent with
        | [] => .error (.input (.emptyExponent (place total rest)))
        | row =>
          return .power (List.replicate minuses (.token .subtract) ++ row) :: (← readRow total rest)
      | .call callee inner => do
        let texts := Brackets.arguments inner
        if texts.length ≠ callee.arity then
          .error (.input (.argumentCount callee.name callee.arity texts.length))
        else
          let args ← readRows texts
          return callee.item args :: (← readRow total rest) := by
  rw [readRow]
  split <;> rename_i h' <;> rw [h] at h' <;> cases h' <;> rfl

/-- A piece that is at fault is the fault of the row. -/
theorem readRow_error {total : Nat} {c : Char} {cs : List Char} {f : Fault}
    (h : nextPiece total c cs = .error f) : readRow total (c :: cs) = .error f := by
  rw [readRow]
  split <;> rename_i h' <;> rw [h] at h' <;> cases h'
  rfl

/-- A text is read as the items of its first piece and those of the rest. -/
theorem readRow_piece {total : Nat} {c : Char} {cs rest : List Char} {p : Piece}
    (h : nextPiece total c cs = .ok (p, rest)) :
    readRow total (c :: cs) = do
      let items ← p.items (place total rest)
      return items ++ (← readRow total rest) := by
  rw [readRow_cons h]
  cases p with
  | finished row => rfl
  | group inner =>
    dsimp only [Piece.items]
    cases readRow inner.length inner <;> rfl
  | power minuses exponent =>
    dsimp only [Piece.items]
    cases readRow exponent.length exponent with
    | error f => rfl
    | ok row => cases row <;> rfl
  | call callee inner =>
    dsimp only [Piece.items]
    split
    · rfl
    · cases readRows (Brackets.arguments inner) <;> rfl

/-- Some texts are read one by one. -/
theorem readRows_eq_mapM (texts : List (List Char)) :
    readRows texts = texts.mapM fun t => readRow t.length t := by
  induction texts with
  | nil =>
    rw [readRows]
    rfl
  | cons t ts ih => rw [readRows, ih, List.mapM_cons]

/-! ## Promises about reading -/

/-- A finished piece is a row of one kind, and what is still to be read in it are texts of another. -/
def Piece.Keeps (T : List Char → Prop) (R : Row → Prop) : Piece → Prop
  | .finished row => R row
  | .group inner | .power _ inner | .call _ inner => T inner

/-- What is promised about reading texts of a kind, when it can be promised about single pieces:
the kind of the rows that are read, and the faults. -/
structure Promise (T : List Char → Prop) (R : Row → Prop) (E : Fault → Prop) : Prop where
  piece : ∀ (total : Nat) {c : Char} {cs : List Char}, T (c :: cs) →
    Meets (nextPiece total c cs) (fun r => r.1.Keeps T R ∧ T r.2) E
  arguments : ∀ {inner : List Char}, T inner → ∀ t ∈ Brackets.arguments inner, T t
  nil : R []
  append : ∀ {row next : Row}, R row → R next → R (row ++ next)
  group : ∀ {row : Row}, R row → R [.parentheses row]
  power : ∀ (minuses : Nat) {row : Row}, R row →
    R [.power (List.replicate minuses (.token .subtract) ++ row)]
  call : ∀ (callee : Callee) {args : List Row}, args.length = callee.arity →
    (∀ row ∈ args, R row) → R [callee.item args]
  input : ∀ e : InputError, E (.input e)

/-- No argument is longer than what stands in the parentheses. -/
theorem length_le_of_mem_arguments {inner t : List Char} (h : t ∈ Brackets.arguments inner) :
    t.length ≤ inner.length := by
  have hle : t.length + 1 ≤ weight (Brackets.arguments inner) :=
    List.single_le_sum (by simp) _ (List.mem_map.mpr ⟨t, h, rfl⟩)
  have := weight_arguments_le inner
  omega

/-- The rows of some texts, when each text gives a row of a kind. -/
theorem readRows_meets {R : Row → Prop} {E : Fault → Prop} {texts : List (List Char)}
    (h : ∀ t ∈ texts, Meets (readRow t.length t) R E) :
    Meets (readRows texts) (fun rows => rows.length = texts.length ∧ ∀ row ∈ rows, R row) E := by
  induction texts with
  | nil =>
    rw [readRows]
    exact ⟨rfl, by simp⟩
  | cons t ts ih =>
    rw [readRows]
    refine (h t (by simp)).bind fun row hrow => ?_
    refine (ih fun u hu => h u (by simp [hu])).bind fun rows hrows => ?_
    refine ⟨by simp [hrows.1], fun r hr => ?_⟩
    rcases List.mem_cons.mp hr with rfl | hr
    · exact hrow
    · exact hrows.2 r hr

/-- The items of a piece are of the kind, if shorter texts give rows of that kind. -/
theorem Promise.items {T : List Char → Prop} {R : Row → Prop} {E : Fault → Prop}
    (h : Promise T R E) {p : Piece} (hp : p.Keeps T R) (stop : Nat)
    (ih : ∀ t : List Char, t.length ≤ p.text.length → T t → Meets (readRow t.length t) R E) :
    Meets (p.items stop) R E := by
  cases p with
  | finished row => exact hp
  | group inner => exact (ih inner le_rfl hp).bind fun row hrow => h.group hrow
  | power minuses exponent =>
    refine (ih exponent le_rfl hp).bind fun row hrow => ?_
    cases row with
    | nil => exact h.input _
    | cons item items => exact h.power minuses hrow
  | call callee inner =>
    dsimp only [Piece.items]
    split
    · exact h.input _
    · next hcount =>
      have htexts : ∀ t ∈ Brackets.arguments inner, Meets (Reader.readRow t.length t) R E :=
        fun t ht => ih t (length_le_of_mem_arguments ht) (h.arguments hp t ht)
      refine (readRows_meets htexts).bind fun args hargs => ?_
      refine h.call callee ?_ hargs.2
      rw [hargs.1]
      exact not_not.mp hcount

/-- A promise about pieces is kept by reading. -/
theorem Promise.readRow {T : List Char → Prop} {R : Row → Prop} {E : Fault → Prop}
    (h : Promise T R E) (total : Nat) {cs : List Char} (hcs : T cs) :
    Meets (readRow total cs) R E := by
  -- what a piece leaves to be read is shorter than the text it was taken from
  induction hn : cs.length using Nat.strong_induction_on generalizing total cs with
  | _ n ih =>
  subst hn
  match cs with
  | [] =>
    rw [Reader.readRow]
    exact h.nil
  | c :: cs =>
    have hpiece := h.piece total hcs
    cases hnext : nextPiece total c cs with
    | error f =>
      rw [readRow_error hnext]
      exact hpiece.of_error hnext
    | ok r =>
      obtain ⟨p, rest⟩ := r
      obtain ⟨hkept, hafter⟩ : p.Keeps T R ∧ T rest := hpiece.of_ok hnext
      have hpending := nextPiece_pending hnext
      have hshorter := p.length_text_le
      rw [readRow_piece hnext]
      refine (h.items hkept _ fun t ht hkind => ?_).bind fun row hrow => ?_
      · exact ih t.length (by rw [List.length_cons]; omega) _ hkind rfl
      refine (ih rest.length (by rw [List.length_cons]; omega) total hafter rfl).bind
        fun next hnext => ?_
      exact h.append hrow hnext

end Reader
end Mathpad
