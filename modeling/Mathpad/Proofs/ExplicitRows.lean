import Mathpad.Proofs.Figures
import Mathpad.Proofs.Reading

/-!
# Rows with everything written out

A row may leave a product out between its factors, negate a factor with a minus sign, divide by a
token, and spell a number in several ways. In an explicit row none of this happens, which can
be seen from the neighbours of each item (`Item.Explicit`). So the parts of an explicit row
are explicit too, the derivation of an explicit row has no use for some of the rules
(`Row.Explicit.not_juxtaposed`, `Row.Explicit.no_sign`), and its literals are canonical.
-/
set_option autoImplicit false

namespace Mathpad

/-! ## Items between their neighbours -/

namespace Item

/-- Whether an operand can end with the item, which it can with all but operators. -/
def isOperand : Item → Bool
  | .token .add | .token .subtract | .token .multiply | .token .divide => false
  | _ => true

/-- Whether the item is a digit. -/
def isDigit : Item → Bool
  | .token (.digit _) => true
  | _ => false

/-- How an item stands between its neighbours where everything is written out: there is no token
for a quotient, a minus sign has something to subtract from, a point has digits on both sides, a
digit goes on with a number or begins one, with a zero only if that is all before the point, and
other operands do not directly follow an operand. -/
def Explicit (left right : Option Item) : Item → Prop
  | .token .divide => False
  | .token .subtract => left.any isOperand = true
  | .token .point => left.any isDigit = true ∧ right.any isDigit = true
  | .token (.digit d) =>
    (0 ≤ d ∧ d ≤ 9) ∧ (left.any isOperand = true → left.any isNumeral = true) ∧
      (d = 0 → right.any isDigit = true → left.any isNumeral = true)
  | .token .add | .token .multiply | .power _ => True
  | .token (.var _) | .sqrt _ | .parentheses _ | .fraction _ _ | .call _ _ =>
    left.any isOperand = false

instance (left right : Option Item) (item : Item) : Decidable (item.Explicit left right) :=
  match item with
  | .token .divide => inferInstanceAs (Decidable False)
  | .token .subtract => inferInstanceAs (Decidable (left.any isOperand = true))
  | .token .point =>
    inferInstanceAs (Decidable (left.any isDigit = true ∧ right.any isDigit = true))
  | .token (.digit d) =>
    inferInstanceAs (Decidable ((0 ≤ d ∧ d ≤ 9) ∧
      (left.any isOperand = true → left.any isNumeral = true) ∧
      (d = 0 → right.any isDigit = true → left.any isNumeral = true)))
  | .token .add | .token .multiply | .power _ => inferInstanceAs (Decidable True)
  | .token (.var _) | .sqrt _ | .parentheses _ | .fraction _ _ | .call _ _ =>
    inferInstanceAs (Decidable (left.any isOperand = false))

/-- Only what kind of neighbours an item has matters. -/
theorem explicit_congr {left left' right right' : Option Item} {item : Item}
    (hoperand : left.any isOperand = left'.any isOperand)
    (hnumeral : left.any isNumeral = left'.any isNumeral)
    (hdigit : left.any isDigit = left'.any isDigit)
    (hright : right.any isDigit = right'.any isDigit) :
    item.Explicit left right ↔ item.Explicit left' right' := by
  unfold Explicit
  rw [hoperand, hnumeral, hdigit, hright]

end Item

/-! ## Explicit rows -/

namespace Row

/-- Every item of the row is explicit, where the row stands between the given neighbours. -/
def ExplicitBetween (left right : Option Item) : Row → Prop
  | [] => True
  | item :: rest => item.Explicit left (rest.head?.or right) ∧ ExplicitBetween (some item) right rest

instance decidableExplicitBetween (left right : Option Item) :
    (row : Row) → Decidable (ExplicitBetween left right row)
  | [] => inferInstanceAs (Decidable True)
  | item :: rest =>
    have := decidableExplicitBetween (some item) right rest
    inferInstanceAs (Decidable (_ ∧ _))

/-- Everything in the row is written out. What is inside of its items is not looked at. -/
def Explicit (row : Row) : Prop := ExplicitBetween none none row

instance (row : Row) : Decidable row.Explicit :=
  inferInstanceAs (Decidable (ExplicitBetween none none row))

variable {row next : Row} {item : Item} {left right left' right' : Option Item}

/-- Two rows are explicit next to each other if each is explicit with the other one for its
neighbour. -/
theorem explicitBetween_append :
    ExplicitBetween left right (row ++ next) ↔
      ExplicitBetween left (next.head?.or right) row ∧
        ExplicitBetween (row.getLast?.or left) right next := by
  induction row generalizing left with
  | nil => simp [ExplicitBetween]
  | cons item row ih =>
    -- at the seam the neighbours are the ends of the two parts, as far as there are any
    have hhead : (row ++ next).head?.or right = row.head?.or (next.head?.or right) := by
      cases row <;> simp
    have hlast : (item :: row).getLast?.or left = row.getLast?.or (some item) := by
      cases row with
      | nil => rfl
      | cons other row => simp [List.getLast?_cons]
    rw [List.cons_append, ExplicitBetween, ExplicitBetween, ih, hhead, hlast, and_assoc]

/-- Of the item on the left it counts only whether it is an operand, a part of a literal, and a
digit. -/
theorem explicitBetween_congr_left (hoperand : left.any Item.isOperand = left'.any Item.isOperand)
    (hnumeral : left.any Item.isNumeral = left'.any Item.isNumeral)
    (hdigit : left.any Item.isDigit = left'.any Item.isDigit) :
    ExplicitBetween left right row ↔ ExplicitBetween left' right row := by
  cases row with
  | nil => exact Iff.rfl
  | cons item row =>
    exact and_congr (Item.explicit_congr hoperand hnumeral hdigit rfl) Iff.rfl

/-- Of the item on the right it counts only whether it is a digit. -/
theorem explicitBetween_congr_right (h : right.any Item.isDigit = right'.any Item.isDigit) :
    ExplicitBetween left right row ↔ ExplicitBetween left right' row := by
  induction row generalizing left with
  | nil => exact Iff.rfl
  | cons item row ih =>
    refine and_congr (Item.explicit_congr rfl rfl rfl ?_) ih
    cases row with
    | nil => exact h
    | cons => rfl

/-- What stands before an item that is no digit is explicit by itself. -/
theorem Explicit.before (h : (row ++ item :: next).Explicit) (hitem : item.isDigit = false) :
    row.Explicit := by
  refine (explicitBetween_congr_right ?_).mp (explicitBetween_append.mp h).1
  simp [hitem]

/-- Each item of an explicit row stands as it should between its neighbours. -/
theorem Explicit.at (h : (row ++ item :: next).Explicit) :
    item.Explicit row.getLast? next.head? := by
  have hitem := (explicitBetween_append.mp h).2.1
  rwa [Option.or_none, Option.or_none] at hitem

/-- What stands behind an operator is explicit by itself. -/
theorem Explicit.behind (h : (row ++ item :: next).Explicit) (hitem : item.isOperand = false) :
    next.Explicit := by
  have hnext := (explicitBetween_append.mp h).2.2
  cases item with
  | token t =>
    cases t with
    | add | subtract | multiply | divide =>
      refine (explicitBetween_congr_left ?_ ?_ ?_).mpr hnext <;> rfl
    | point | digit | var => cases hitem
  | sqrt | fraction | parentheses | power | call => cases hitem

end Row

/-- Everything in the rows inside the item is written out. -/
def Item.ExplicitInside (item : Item) : Prop := ∀ inner ∈ item.slots, inner.Explicit

instance (item : Item) : Decidable item.ExplicitInside :=
  inferInstanceAs (Decidable (∀ inner ∈ item.slots, inner.Explicit))

theorem Item.explicitInside_token (t : Token) : (Item.token t).Everywhere Item.ExplicitInside :=
  everywhere_token fun _ hinner => nomatch hinner

/-! ## Derivations of explicit rows -/

theorem Item.isOperand_of_isNumeral {item : Item} (h : item.isNumeral = true) :
    item.isOperand = true := by
  match item, h with
  | .token .point, _ | .token (.digit _), _ => rfl

/-- A literal consists of digits and points. -/
theorem Numeral.isNumeral_of_mem {n : Numeral} {item : Item} (h : item ∈ n.row) :
    item.isNumeral = true := by
  have hdigits : ∀ {ds : List Int}, item ∈ ds.map Item.digit → item.isNumeral = true := by
    intro ds hmem
    obtain ⟨d, -, rfl⟩ := List.mem_map.mp hmem
    rfl
  obtain ⟨whole, fraction, written⟩ := n
  rw [Numeral.row] at h
  rcases List.mem_append.mp h with h | h
  · exact hdigits h
  · cases fraction with
    | none => cases h
    | some places =>
      rcases List.mem_cons.mp h with rfl | h
      · rfl
      · exact hdigits h

/-- What is derived ends with an operand. -/
theorem Derives.exists_last {l : Level} {row : Row} {e : Expr} (h : Derives l row e) :
    ∃ item, row.getLast? = some item ∧ item.isOperand = true := by
  have hbehind : ∀ {before after : Row},
      (∃ item, after.getLast? = some item ∧ item.isOperand = true) →
      ∃ item, (before ++ after).getLast? = some item ∧ item.isOperand = true := by
    rintro before after ⟨item, hlast, hitem⟩
    exact ⟨item, by rw [List.getLast?_append, hlast]; rfl, hitem⟩
  induction h with
  | literal n =>
    exact ⟨_, List.getLast?_eq_some_getLast n.row_ne_nil,
      Item.isOperand_of_isNumeral (n.isNumeral_of_mem (List.getLast_mem n.row_ne_nil))⟩
  | «variable» | sqrt | parentheses | fraction | call => exact ⟨_, rfl, rfl⟩
  | bare _ ih | alone _ ih | single _ ih | lone _ ih => exact ih
  | power => exact hbehind ⟨_, rfl, rfl⟩
  | signed _ _ ih => exact hbehind ih
  | juxtaposed _ _ _ _ _ ih => exact hbehind ih
  | multiplied _ _ _ _ ih | added _ _ _ _ ih =>
    rw [← List.singleton_append, ← List.append_assoc]
    exact hbehind ih

/-- Behind a digit or a point a literal goes on. -/
theorem openLiteral_of_last {row : Row} {item : Item} (hlast : row.getLast? = some item)
    (h : item.isNumeral = true) : ∃ pointed, openLiteral row = some pointed := by
  obtain ⟨before, rfl⟩ := List.getLast?_eq_some_iff.mp hlast
  rw [openLiteral_append]
  match item, h with
  | .token .point, _ | .token (.digit _), _ => exact ⟨_, rfl⟩

namespace Row

/-- In an explicit row no factor directly follows another one. -/
theorem Explicit.not_juxtaposed {row next : Row} {l : Level} {e : Expr}
    (h : (row ++ next).Explicit) (hrow : Derives l row e) (starts : StartsFactor next)
    (ends : Ends row next) : False := by
  obtain ⟨last, hlast, hoperand⟩ := hrow.exists_last
  obtain ⟨item, tail, rfl⟩ := List.exists_cons_of_ne_nil starts.ne_nil
  have hitem := h.at
  rw [hlast] at hitem
  have hstarts : item.startsFactor = true := starts
  have hends : Item.continues (openLiteral row) item = false := ends
  have hfollows : (some last).any Item.isOperand = true := hoperand
  match item, hstarts with
  | .token (.digit d), _ =>
    -- a digit may only follow a literal, but that would go on with it and not end
    obtain ⟨pointed, hopen⟩ := openLiteral_of_last hlast (hitem.2.1 hfollows)
    rw [hopen] at hends
    cases pointed <;> cases hends
  | .token (.var _), _ | .sqrt _, _ | .parentheses _, _ | .fraction _ _, _ | .call _ _, _ =>
    exact Bool.false_ne_true (hitem.symm.trans hfollows)

/-- An explicit row does not begin with a minus sign. -/
theorem Explicit.no_sign {row : Row} {k : Nat}
    (h : Row.Explicit (List.replicate k Item.minus ++ row)) :
    k = 0 := by
  cases k with
  | zero => rfl
  | succ k =>
    have hminus : Item.Explicit none _ Item.minus := h.1
    cases hminus

/-- In an explicit row factors are not joined by a token for a quotient. -/
theorem Explicit.multiply {row next : Row} {op : BinaryOp} (additive : op.isAdditive = false)
    (h : (row ++ .token op.token :: next).Explicit) : op = .multiply := by
  cases op with
  | multiply => rfl
  | divide => exact h.at.elim
  | add | subtract => cases additive

end Row

/-! ## Canonical literals -/

/-- There are digits before the point and, if there is one, behind it, with no zero in front that
is not all there is. -/
structure Numeral.Canonical (n : Numeral) : Prop where
  digits : ∀ d ∈ n.whole ++ n.fraction.getD [], 0 ≤ d ∧ d ≤ 9
  whole : n.whole ≠ []
  fraction : n.fraction ≠ some []
  zero : n.whole.head? = some 0 → n.whole = [0]

/-- Each item of a row that is explicit between neighbours stands as it should between some. -/
theorem Row.ExplicitBetween.exists_of_mem {left right : Option Item} {row : Row} {item : Item}
    (h : ExplicitBetween left right row) (hitem : item ∈ row) :
    ∃ left right, item.Explicit left right := by
  induction row generalizing left with
  | nil => cases hitem
  | cons other row ih =>
    rcases List.mem_cons.mp hitem with rfl | hitem
    · exact ⟨_, _, h.1⟩
    · exact ih h.2 hitem

/-- A literal that is explicit has its digits as one writes them. -/
theorem Row.Explicit.canonical {n : Numeral} (h : n.row.Explicit) : n.Canonical := by
  obtain ⟨whole, fraction, written⟩ := n
  refine ⟨fun d hd => ?_, ?_, ?_, fun hzero => ?_⟩
  · have hmem : Item.digit d ∈ (Numeral.mk whole fraction written).row := by
      rcases List.mem_append.mp hd with hd | hd
      · exact List.mem_append_left _ (List.mem_map_of_mem hd)
      · cases fraction with
        | none => cases hd
        | some places => exact List.mem_append_right _ (List.mem_cons_of_mem _ (List.mem_map_of_mem hd))
    obtain ⟨left, right, hdigit⟩ := ExplicitBetween.exists_of_mem h hmem
    exact hdigit.1
  · rintro rfl
    cases fraction with
    | none => simp at written
    | some places =>
      have hpoint : Item.Explicit none _ (.token .point) := h.1
      -- an explicit point has a digit in front of it
      cases hpoint.1
  · rintro rfl
    have hrow : Row.Explicit (whole.map Item.digit ++ .token .point :: []) := h
    cases hrow.at.2
  · obtain ⟨more, rfl⟩ : ∃ more, whole = 0 :: more := List.head?_eq_some_iff.mp hzero
    cases more with
    | nil => rfl
    | cons d more =>
      have hdigit : Item.Explicit none (some (.digit d)) (.digit 0) := h.1
      cases hdigit.2.2 rfl rfl

end Mathpad
