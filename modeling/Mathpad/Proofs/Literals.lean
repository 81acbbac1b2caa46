import Mathpad.Proofs.Grammar
import Mathpad.Proofs.Outcome

/-!
# Reading a number literal

Reading takes the longest run of digits with at most one point, which is a `Numeral`, and
finds the number that it spells or an overflow. Any row that begins with a digit or a
point begins with a literal that ends where the reading stops.
-/
set_option autoImplicit false

namespace Mathpad

namespace Expr

@[simp] theorem partsOf_nil : partsOf [] = [] := rfl

@[simp] theorem partsOf_cons (item : Item) (row : Row) :
    partsOf (item :: row) = partOf item :: partsOf row := rfl

end Expr

open Mathpad.Expr Mathpad.Part

/-! ## What is read -/

namespace Numeral

/-- What is known of a literal once all of it is read. -/
def literal (n : Numeral) : Literal := ⟨n.mantissa, n.places, n.fraction.isSome⟩

/-- The number is found exactly when the literal is in range. -/
theorem literal_number (n : Numeral) :
    n.literal.number = if n.InRange then .ok n.number else .error (.upgrade .overflow) := by
  have hrange :
      (maxMagnitude < n.literal.mantissa ∨ maxPlaces < n.literal.places) ↔ ¬ n.InRange := by
    rw [InRange, literal]
    dsimp only
    omega
  have hpoint : (¬ n.literal.pointed = true) ↔ n.fraction = none := by
    simp [literal]
  unfold Literal.number number
  simp only [hpoint]
  by_cases hn : n.InRange
  · rw [if_neg (fun h => hrange.mp h hn), if_pos hn, apply_ite Except.ok]
    rfl
  · rw [if_pos (hrange.mpr hn), if_neg hn]

theorem row_ne_nil (n : Numeral) : n.row ≠ [] := by
  obtain ⟨whole, fraction, written⟩ := n
  cases fraction with
  | none => simpa [row] using written
  | some ds => simp [row]

/-- Digits keep a literal going, and begin one. -/
theorem openLiteral_digits (ds : List Int) (state : Option Bool) :
    (ds.map Item.digit).foldl openLiteral.goOn state =
      if ds = [] then state else some (state.getD false) := by
  induction ds generalizing state with
  | nil => rfl
  | cons d ds ih =>
    rw [List.map_cons, List.foldl_cons, ih]
    simp [Item.digit, openLiteral.goOn]

/-- At the end of a literal stands that literal, with its point. -/
@[simp] theorem openLiteral_row (n : Numeral) : openLiteral n.row = some n.fraction.isSome := by
  obtain ⟨whole, fraction, written⟩ := n
  cases fraction with
  | none =>
    have hw : whole ≠ [] := by simpa using written
    simp [row, openLiteral, openLiteral_digits, hw]
  | some ds => simp [row, openLiteral, openLiteral_digits, openLiteral.goOn]

end Numeral

/-- The state of a literal after more digits. -/
def Part.Literal.pushAll (l : Literal) (ds : List Int) : Literal := ds.foldl Literal.push l

/-- Pushing digits appends them to the mantissa, and counts them as places behind a point. -/
theorem Part.Literal.pushAll_eq (l : Literal) (ds : List Int) :
    l.pushAll ds =
      ⟨l.mantissa * 10 ^ ds.length + Nat.ofDigits 10 (ds.map Int.toNat).reverse,
        if l.pointed then l.places + ds.length else l.places, l.pointed⟩ := by
  induction ds generalizing l with
  | nil => simp [pushAll]
  | cons d ds ih =>
    have hstep : l.pushAll (d :: ds) = (l.push d).pushAll ds := rfl
    rw [hstep, ih]
    simp only [Literal.push, List.length_cons, List.map_cons, List.reverse_cons,
      Nat.ofDigits_append, List.length_reverse, List.length_map, Nat.ofDigits_singleton]
    congr 1
    · ring
    · split
      · omega
      · rfl

/-- A literal goes on through digits. -/
theorem takeLiteral_digits (l : Literal) (ds : List Int) (rest : Row) :
    takeLiteral l (partsOf (ds.map Item.digit ++ rest)) =
      takeLiteral (l.pushAll ds) (partsOf rest) := by
  induction ds generalizing l with
  | nil => rfl
  | cons d ds ih =>
    rw [List.map_cons, List.cons_append, partsOf_cons, Item.digit, partOf, takeLiteral]
    exact ih (l.push d)

/-- Nothing is added to a literal that has ended. -/
theorem takeLiteral_of_ends {l : Literal} {row rest : Row} (h : Ends row rest)
    (hl : openLiteral row = some l.pointed) :
    takeLiteral l (partsOf rest) = (l, partsOf rest) := by
  rw [Ends, hl] at h
  cases rest with
  | nil => rfl
  | cons item rest =>
    cases item with
    | token t =>
      cases t with
      | point =>
        have hp : l.pointed = true := by
          cases hp : l.pointed with
          | true => rfl
          | false => simp [hp, Item.continues] at h
        rw [partsOf_cons, partOf, takeLiteral, if_pos hp]
      | digit d => simp [Item.continues] at h
      | add | subtract | multiply | divide | var => rfl
    | sqrt | fraction | parentheses | power | call => rfl

/-- A literal is read as far as it goes, if what follows does not go on with it. -/
theorem takeLiteral_numeral (n : Numeral) {rest : Row} (h : Ends n.row rest) :
    takeLiteral {} (partsOf (n.row ++ rest)) = (n.literal, partsOf rest) := by
  obtain ⟨whole, fraction, written⟩ := n
  have hopen := Numeral.openLiteral_row ⟨whole, fraction, written⟩
  cases fraction with
  | none =>
    have hl : (({} : Literal).pushAll whole) = Numeral.literal ⟨whole, none, written⟩ := by
      simp [Literal.pushAll_eq, Numeral.literal, Numeral.mantissa, Numeral.places]
    rw [Numeral.row, List.append_nil, takeLiteral_digits, hl]
    exact takeLiteral_of_ends h hopen
  | some ds =>
    have hl : (({ ({} : Literal).pushAll whole with pointed := true } : Literal).pushAll ds) =
        Numeral.literal ⟨whole, some ds, written⟩ := by
      simp [Literal.pushAll_eq, Numeral.literal, Numeral.mantissa, Numeral.places,
        Nat.ofDigits_append]
      ring
    have hpointed : (({} : Literal).pushAll whole).pointed = false := by
      rw [Literal.pushAll_eq]
    rw [Numeral.row, List.append_assoc, takeLiteral_digits, List.cons_append, partsOf_cons, partOf,
      takeLiteral, if_neg (by simp [hpointed]), takeLiteral_digits, hl]
    exact takeLiteral_of_ends h hopen

/-! ## Literals as units -/

/-- Whether an item belongs to a literal. -/
def Item.isNumeral : Item → Bool
  | .token t => t.isNumeral
  | _ => false

/-- A unit that begins with a digit or a point is a literal. -/
theorem takeUnit_eq_ofLiteral {item : Item} (h : item.isNumeral = true) (rest : Row) :
    takeUnit (partsOf (item :: rest)) =
      takeUnit.ofLiteral (takeLiteral {} (partsOf (item :: rest))) := by
  match item, h with
  | .token (.digit d), _ => rfl
  | .token .point, _ => rfl

/-- A literal begins with a digit or a point. -/
theorem Numeral.exists_head (n : Numeral) :
    ∃ item tail, n.row = item :: tail ∧ item.isNumeral = true := by
  obtain ⟨whole, fraction, written⟩ := n
  match whole, fraction, written with
  | d :: ds, fraction, _ => exact ⟨Item.digit d, _, rfl, rfl⟩
  | [], some ds, _ => exact ⟨_, _, rfl, rfl⟩

/-- A literal is read as a unit, if it is in range. -/
theorem takeUnit_numeral (n : Numeral) {rest : Row} (h : Ends n.row rest) :
    takeUnit (partsOf (n.row ++ rest)) =
      if n.InRange then .ok (.number n.number, partsOf rest)
      else .error (.upgrade .overflow) := by
  obtain ⟨item, tail, hrow, hitem⟩ := n.exists_head
  have hread : takeUnit (partsOf (n.row ++ rest)) =
      takeUnit.ofLiteral (takeLiteral {} (partsOf (n.row ++ rest))) := by
    rw [hrow, List.cons_append]
    exact takeUnit_eq_ofLiteral hitem _
  rw [hread, takeLiteral_numeral n h, takeUnit.ofLiteral, n.literal_number]
  split <;> rfl

/-- The digits at the start of a row. -/
theorem exists_digits (row : Row) :
    ∃ (ds : List Int) (rest : Row), row = ds.map Item.digit ++ rest ∧ ∀ d tail, rest ≠ Item.digit d :: tail := by
  induction row with
  | nil => exact ⟨[], [], rfl, by simp⟩
  | cons item row ih =>
    by_cases hd : ∃ d, item = Item.digit d
    · obtain ⟨d, rfl⟩ := hd
      obtain ⟨ds, rest, rfl, hrest⟩ := ih
      exact ⟨d :: ds, rest, rfl, hrest⟩
    · refine ⟨[], item :: row, rfl, ?_⟩
      rintro d tail h
      exact hd ⟨d, (List.cons.inj h).1⟩

/-- A row that begins with a digit or a point begins with a literal, and that ends. -/
theorem exists_numeral {item : Item} (h : item.isNumeral = true) (row : Row) :
    ∃ (n : Numeral) (rest : Row), item :: row = n.row ++ rest ∧ Ends n.row rest := by
  obtain ⟨ds, rest, hrow, hrest⟩ := exists_digits (item :: row)
  -- what is neither a digit nor a point that is still allowed ends the literal
  have hends : ∀ {b : Bool} {r : Row}, (∀ d tail, r ≠ Item.digit d :: tail) →
      (b = true ∨ ∀ tail, r ≠ .token .point :: tail) →
      r.head?.any (Item.continues (some b)) = false := by
    rintro b r hd hp
    cases r with
    | nil => rfl
    | cons item tail =>
      cases item with
      | token t =>
        cases t with
        | digit d => exact absurd rfl (hd d tail)
        | point =>
          rcases hp with rfl | hp
          · rfl
          · exact absurd rfl (hp tail)
        | add | subtract | multiply | divide | var => cases b <;> rfl
      | sqrt | fraction | parentheses | power | call => cases b <;> rfl
  by_cases hp : ∃ tail, rest = .token .point :: tail
  · obtain ⟨tail, rfl⟩ := hp
    obtain ⟨fs, rest, rfl, hplaces⟩ := exists_digits tail
    refine ⟨⟨ds, some fs, Or.inr (by simp)⟩, rest, ?_, ?_⟩
    · rw [hrow]
      simp [Numeral.row]
    · rw [Ends, Numeral.openLiteral_row]
      exact hends hplaces (Or.inl rfl)
  · -- without a point there has to be a digit, as the row begins with one of the two
    have hds : ds ≠ [] := by
      rintro rfl
      rw [List.map_nil, List.nil_append] at hrow
      cases item with
      | token t =>
        cases t with
        | digit d => exact hrest d row hrow.symm
        | point => exact hp ⟨row, hrow.symm⟩
        | add | subtract | multiply | divide | var => cases h
      | sqrt | fraction | parentheses | power | call => cases h
    refine ⟨⟨ds, none, Or.inl hds⟩, rest, ?_, ?_⟩
    · rw [hrow]
      simp [Numeral.row]
    · rw [Ends, Numeral.openLiteral_row]
      exact hends hrest (Or.inr fun tail ht => hp ⟨tail, ht⟩)

end Mathpad
