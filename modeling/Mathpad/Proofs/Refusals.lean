import Mathpad.Proofs.Reading

/-!
# Every failure is met

Where a row fails, reading reports the reason. The part before the place is an expression,
so it is read; the fault that is met behind it is passed on by every level above the one
that meets it. `Refuses` says that of a level, and the lemmas go up level by level.
-/
set_option autoImplicit false

namespace Mathpad

open Mathpad.Expr Mathpad.Part

variable {rest : Row} {f : Fault}

/-! ## Faults behind an expression -/

/-- Reading an expression of a level meets a fault when `rest` follows. -/
def Level.Refuses (l : Level) (rest : Row) (f : Fault) : Prop :=
  ∀ ⦃row : Row⦄ ⦃e : Expr⦄, Derives l row e → Ends row rest →
    l.take (partsOf (row ++ rest)) = .error f

/-- What refuses a power behind a unit is the fault of the unit with its powers. -/
theorem Level.Refuses.raised (h : ∀ e, takePowers e (partsOf rest) = .error f) :
    Level.raised.Refuses rest f := by
  intro row e hrow hends
  rw [hrow.take hends (Level.free_raised rest), Level.resume, h]

/-- A fault behind a unit with its powers is one behind the signed unit, as all its minuses are read
first. -/
theorem Level.Refuses.signed (h : Level.raised.Refuses rest f) :
    Level.signed.Refuses rest f := by
  intro row e hrow hends
  cases hrow with
  | signed k hrow =>
    obtain ⟨item, tail, rfl, hitem⟩ := hrow.exists_head (Or.inr rfl)
    have hraised : takeRaised _ = .error f :=
      h hrow (hends.congr (openLiteral_minuses_append k _))
    have hminus : ∀ t, item :: tail ++ rest ≠ Item.minus :: t :=
      Item.ne_minus_of_startsUnit hitem (tail ++ rest)
    rw [List.append_assoc, Level.take, takeSigned_minuses k hminus, hraised, error_bind]

/-- A factor passes on what is met behind its last signed unit. -/
theorem Level.Refuses.of_last
    (h : ∀ ⦃row : Row⦄ ⦃e : Expr⦄, Derives .signed row e → Ends row rest →
      takeFactor (partsOf (row ++ rest)) = .error f) : Level.factor.Refuses rest f
  | _, _, .alone hrow, hends => h hrow hends
  | _, _, @Derives.juxtaposed row next e _ hrow hnext starts ends, hends => by
    have hne : next ≠ [] := starts.ne_nil
    have hlast : takeFactor _ = .error f :=
      Level.Refuses.of_last h hnext (hends.congr (openLiteral_append_of_ends ends hne))
    have hfirst : takeSigned _ = .ok (e, partsOf (next ++ rest)) :=
      hrow.take ((ends_append_iff hne rest).mpr ends) (Level.free_signed_of_startsFactor (starts.append rest))
    rw [List.append_assoc, Level.take, takeFactor_eq, hfirst, ok_bind]
    dsimp only
    rw [if_pos ((startsFactor_partsOf _).mpr (starts.append rest)), hlast, error_bind]

/-- A fault behind a signed unit is one behind the factor. -/
theorem Level.Refuses.factor (h : Level.signed.Refuses rest f) :
    Level.factor.Refuses rest f :=
  Level.Refuses.of_last fun _ _ hrow hends => by
    have hsigned : takeSigned _ = .error f := h hrow hends
    rw [takeFactor_eq, hsigned, error_bind]

/-- A fault in the factor that stands directly behind another one. -/
theorem Level.Refuses.juxtaposed (starts : StartsFactor rest)
    (h : takeFactor (partsOf rest) = .error f) : Level.factor.Refuses rest f :=
  Level.Refuses.of_last fun _ e hrow hends => by
    have hfirst : takeSigned _ = .ok (e, partsOf rest) :=
      hrow.take hends (Level.free_signed_of_startsFactor starts)
    rw [takeFactor_eq, hfirst, ok_bind]
    dsimp only
    rw [if_pos ((startsFactor_partsOf _).mpr starts), h, error_bind]

section Joined

variable {part whole : Level} {additive : Bool}

/-- Operands that are joined pass on what is met behind the last one. -/
theorem Level.Joined.refuses (j : Level.Joined part whole additive) (h : part.Refuses rest f) :
    whole.Refuses rest f := by
  intro row e hrow hends
  obtain hpart | ⟨op, first, last, a, b, hop, rfl, hfirst, hlast⟩ := j.single_or_join hrow
  · rw [j.take_eq, h hpart hends, error_bind]
  · have hread := hfirst.take (Ends.of_operator _ _ _) (j.free_operator hop (last ++ rest))
    have hfault := h hlast (hends.congr (openLiteral_append_operator first last op))
    rw [j.take_join hop hread, hfault, error_bind]

/-- A fault in the operand behind an operator. -/
theorem Level.Joined.refuses_operand (j : Level.Joined part whole additive) {op : BinaryOp}
    (hop : op.isAdditive = additive) (h : part.take (partsOf rest) = .error f) :
    whole.Refuses (.token op.token :: rest) f := by
  intro row e hrow hends
  rw [hrow.take hends (j.free_operator hop rest), partsOf_cons, partOf, j.resume_operator hop, h,
    error_bind]

end Joined

theorem Level.Refuses.sum (h : Level.factor.Refuses rest f) : Level.sum.Refuses rest f :=
  Level.sum_joined.refuses (Level.term_joined.refuses h)

/-! ## Faults where a unit is awaited -/

/-- A fault in the unit is one of the factor and of the term that begin with it, also
behind minus signs. -/
theorem takeFactor_minuses (k : Nat) (hm : ∀ tail, rest ≠ Item.minus :: tail)
    (h : takeUnit (partsOf rest) = .error f) :
    takeFactor (partsOf (List.replicate k Item.minus ++ rest)) = .error f := by
  rw [takeFactor_eq, takeSigned_minuses k hm, takeRaised, h, error_bind, error_bind, error_bind]

/-- A fault in the first factor is the fault of the term. -/
theorem takeTerm_of_takeFactor {ps : List Part} (h : takeFactor ps = .error f) :
    takeTerm ps = .error f := by
  rw [takeTerm, h, error_bind]

/-- Reading gets to the place where a unit is awaited. -/
theorem Awaits.takeSum_error {row : Row} (h : Awaits row rest)
    (hm : ∀ tail, rest ≠ Item.minus :: tail) (hunit : takeUnit (partsOf rest) = .error f) :
    takeSum (partsOf (row ++ rest)) = .error f := by
  cases h with
  | start k =>
    have hterm := takeTerm_of_takeFactor (takeFactor_minuses k hm hunit)
    rw [takeSum, hterm, error_bind]
  | @operator row e op k hrow =>
    have hfactor := takeFactor_minuses k hm hunit
    rw [List.append_assoc, List.cons_append]
    cases additive : op.isAdditive with
    | true =>
      exact Level.sum_joined.refuses_operand additive (takeTerm_of_takeFactor hfactor) hrow
        (Ends.of_operator _ _ _)
    | false =>
      have hterm := Level.term_joined.refuses_operand additive hfactor
      exact Level.sum_joined.refuses hterm hrow (Ends.of_operator _ _ _)
  | juxtaposed hrow starts ends =>
    have hfactor := takeFactor_minuses 0 hm hunit
    rw [List.replicate_zero, List.nil_append] at hfactor
    exact (Level.Refuses.juxtaposed starts hfactor).sum hrow ends

/-! ## Faults inside an item -/

/-- The first argument that fails is the fault of all. -/
theorem ofRows_eq_error {before : List Row} {inner : Row} (after : List Row)
    (hb : ∀ r ∈ before, ∃ e, ofRow r = .ok e) (h : ofRow inner = .error f) :
    ofRows (before ++ inner :: after) = .error f := by
  induction before with
  | nil =>
    rw [ofRow] at h
    rw [List.nil_append, ofRows, h, error_bind]
  | cons row before ih =>
    obtain ⟨e, he⟩ := hb row (by simp)
    rw [ofRow] at he
    rw [List.cons_append, ofRows, he, ok_bind, ih fun r hr => hb r (by simp [hr]), error_bind]

/-- The first row inside an item that is no expression decides. -/
theorem takeUnit_inside {item : Item} (starts : item.startsFactor = true) {inner : Row}
    {before after : List Row} (slots : item.slots = before ++ inner :: after)
    (hb : ∀ r ∈ before, ∃ e, ofRow r = .ok e) (h : ofRow inner = .error f) :
    takeUnit (partsOf (item :: rest)) = .error f := by
  -- the only row of an item has nothing in front of it
  have one : ∀ {row : Row}, [row] = before ++ inner :: after → ofRow row = .error f := by
    intro row hrow
    obtain ⟨-, hinner⟩ | ⟨_, -, hnil⟩ := List.append_eq_cons_iff.mp hrow.symm
    · rw [← (List.cons.inj hinner).1, h]
    · simp at hnil
  cases item with
  | token t => simp [Item.slots] at slots
  | power exponent => cases starts
  | sqrt row | parentheses row =>
    have hrow := one slots
    rw [ofRow] at hrow
    simp [partOf, takeUnit, hrow]
  | call g args =>
    have hrows := ofRows_eq_error after hb h
    rw [← slots, Item.slots] at hrows
    simp [partOf, takeUnit, hrows]
  | fraction top bottom =>
    obtain ⟨rfl, hslots⟩ | ⟨before, rfl, hslots⟩ := List.append_eq_cons_iff.mp slots.symm
    · have htop : ofRow top = .error f := by rw [← (List.cons.inj hslots).1, h]
      rw [ofRow] at htop
      simp [partOf, takeUnit, htop]
    · obtain ⟨e, he⟩ := hb top (by simp)
      have hbottom : ofRow bottom = .error f := by
        obtain ⟨-, hinner⟩ | ⟨_, -, hnil⟩ := List.append_eq_cons_iff.mp hslots.symm
        · rw [← (List.cons.inj hinner).1, h]
        · simp at hnil
      rw [ofRow] at he hbottom
      simp [partOf, takeUnit, he, hbottom]

/-- A row that fails is refused for that reason. -/
theorem Fails.ofRow_eq {row : Row} {k : UpgradeError} (h : Fails row k) :
    ofRow row = .error (.upgrade k) := by
  induction h with
  | @overflow row rest n hrow ends outOfRange =>
    obtain ⟨item, tail, hn, hitem⟩ := n.exists_head
    have hm : ∀ t, n.row ++ rest ≠ Item.minus :: t := by
      rw [hn, List.cons_append]
      exact Item.ne_minus_of_startsUnit (by rw [Item.startsUnit, hitem, Bool.or_true]) _
    refine ofParts_of_takeSum_error (hrow.takeSum_error hm ?_)
    rw [takeUnit_numeral n ends, if_neg outOfRange]
  | @noUnit row rest hrow hrest =>
    refine ofParts_of_takeSum_error (hrow.takeSum_error ?_ ?_)
    · rintro tail rfl
      obtain hnil | ⟨op, t, hop, ht⟩ := hrest
      · cases hnil
      · cases op <;> first | exact hop rfl | cases ht
    · obtain rfl | ⟨op, tail, hop, rfl⟩ := hrest
      · rfl
      · cases op <;> rfl
  | noBase hrow => exact ofParts_of_takeSum_error (hrow.takeSum_error (by rintro t ⟨⟩) rfl)
  | @leftover row rest e hrow ends =>
    have hsum : takeSum _ = takeTerms e _ := hrow.take ends rfl
    rw [partsOf_cons, partOf, takeTerms] at hsum
    rw [ofRow, ofParts_of_takeSum hsum, if_neg (by simp)]
  | inside hrow starts slots derived _ ih =>
    refine ofParts_of_takeSum_error (hrow.takeSum_error ?_ ?_)
    · exact Item.ne_minus_of_startsUnit (by rw [Item.startsUnit, starts, Bool.true_or]) _
    · exact takeUnit_inside starts slots
        (fun r hr => (derived r hr).imp fun e he => he.ofRow_eq) ih
  | @inExponent row exponent rest e k hrow _ ih =>
    have hpowers : ∀ a, takePowers a (partsOf (.power exponent :: rest)) = .error (.upgrade k) := by
      intro a
      rw [ofRow] at ih
      rw [partsOf_cons, partOf, takePowers, ih, error_bind]
    exact ofParts_of_takeSum_error
      ((Level.Refuses.raised hpowers).signed.factor.sum hrow (Ends.of_power _ _ _))

end Mathpad
