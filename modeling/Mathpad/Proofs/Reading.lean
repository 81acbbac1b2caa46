import Mathpad.Proofs.Literals

/-!
# Every derivation is read

A row that is an expression of some level is read as that expression, whatever follows it
as long as it does not go on. What "reading" and "going on" mean depends on the level:
reading a sum, for instance, is back where it decides whether another term follows, so
operators between terms may follow while a factor or a factor's operator may not.

A row that fails is refused with the reason of its failure. What stands before the place
is read first, so reading gets there, and from there a fault is passed on unchanged.
-/
set_option autoImplicit false

namespace Mathpad

open Mathpad.Expr Mathpad.Part

/-! ## Reading by levels -/

/-- A unit with its powers. -/
def Part.takeRaised (ps : List Part) : Outcome (Expr × List Part) := do
  let (e, ps) ← takeUnit ps
  takePowers e ps

/-- Terms joined by addition and subtraction. -/
def Part.takeSum (ps : List Part) : Outcome (Expr × List Part) := do
  let (e, ps) ← takeTerm ps
  takeTerms e ps

/-- A row is an expression if reading a sum leaves nothing over. -/
theorem Expr.ofParts_of_takeSum {ps rest : List Part} {e : Expr} (h : takeSum ps = .ok (e, rest)) :
    ofParts ps = if rest = [] then .ok e else .error (.upgrade .unexpectedTokensAtEnd) := by
  obtain ⟨⟨f, r⟩, hf, hr⟩ := Outcome.bind_eq_ok.1 h
  rw [ofParts, hf, ok_bind]
  dsimp only at hr ⊢
  rw [hr, ok_bind]
  cases rest <;> rfl

/-- A fault in reading the sum is the fault of the row. -/
theorem Expr.ofParts_of_takeSum_error {ps : List Part} {f : Fault} (h : takeSum ps = .error f) :
    ofParts ps = .error f := by
  unfold takeSum at h
  unfold ofParts
  cases hf : takeTerm ps with
  | error g =>
    rw [hf, error_bind] at h
    rw [error_bind, Except.error.inj h]
  | ok r =>
    rw [hf, ok_bind] at h
    rw [ok_bind]
    dsimp only at h ⊢
    rw [h]
    rfl

/-! ## What follows an expression -/

/-- The item raises what stands before it to a power. -/
def Item.isPower : Item → Bool
  | .power _ => true
  | _ => false

/-- Whether an item is an operator between factors. -/
def Item.joinsFactors : Item → Bool
  | .token .multiply | .token .divide => true
  | _ => false

namespace Level

/-- Reading an expression of a level. -/
def take : Level → List Part → Outcome (Expr × List Part)
  | unit => takeUnit
  | raised => takeRaised
  | signed => takeSigned
  | factor => takeFactor
  | term => takeTerm
  | sum => takeSum

/-- What reading goes on with once an expression of a level is read. -/
def resume : Level → Expr → List Part → Outcome (Expr × List Part)
  | raised => takePowers
  | term => takeFactors
  | sum => takeTerms
  | unit | signed | factor => fun e ps => .ok (e, ps)

/-- Whether an item belongs to a stronger level than the one that is read. -/
def joins : Level → Item → Bool
  | unit, _ | raised, _ => false
  | signed, item => item.isPower
  | factor, item | term, item => item.isPower || item.startsFactor
  | sum, item => item.isPower || item.startsFactor || item.joinsFactors

/-- Nothing follows that would have to be read first. -/
def Free (l : Level) (rest : Row) : Prop := rest.head?.any l.joins = false

@[simp] theorem free_unit (rest : Row) : unit.Free rest := by cases rest <;> rfl

@[simp] theorem free_raised (rest : Row) : raised.Free rest := by cases rest <;> rfl

@[simp] theorem free_nil (l : Level) : l.Free [] := rfl

/-- What cannot go on a factor cannot go on the signed unit at its end. -/
theorem Free.signed {rest : Row} (h : factor.Free rest) : Level.signed.Free rest := by
  cases rest with
  | nil => rfl
  | cons item rest =>
    have hj : (item.isPower || item.startsFactor) = false := h
    exact (Bool.or_eq_false_iff.mp hj).1

/-- Where a product is not gone on, no factor starts. -/
theorem Free.not_startsFactor {rest : Row} (h : factor.Free rest) : ¬ StartsFactor rest := by
  cases rest with
  | nil => simp [StartsFactor]
  | cons item rest =>
    have hj : (item.isPower || item.startsFactor) = false := h
    simp [StartsFactor, (Bool.or_eq_false_iff.mp hj).2]

/-- A signed unit at the end of a factor is not gone on by anything but another factor. -/
theorem Free.factor_of_not_startsFactor {rest : Row} (h : Level.signed.Free rest)
    (hs : ¬ StartsFactor rest) : Level.factor.Free rest := by
  cases rest with
  | nil => rfl
  | cons item rest =>
    have hp : item.isPower = false := h
    have hf : item.startsFactor = false := by simpa [StartsFactor] using hs
    exact Bool.or_eq_false_iff.mpr ⟨hp, hf⟩

/-- What cannot go on a sum cannot go on the factor at its end. -/
theorem Free.factor {rest : Row} (h : sum.Free rest) : Level.factor.Free rest := by
  cases rest with
  | nil => rfl
  | cons item rest => exact (Bool.or_eq_false_iff.mp (show (_ || _) = false from h)).1

/-- A factor begins with no power, so what stands before it is complete as a signed unit. -/
theorem free_signed_of_startsFactor {rest : Row} (h : StartsFactor rest) :
    Level.signed.Free rest := by
  match rest, h with
  | .token _ :: _, _ | .sqrt _ :: _, _ | .fraction _ _ :: _, _ | .parentheses _ :: _, _
  | .call _ _ :: _, _ => rfl

/-- An operator does not go on a product of factors that are written side by side. -/
theorem free_factor_operator (op : BinaryOp) (rest : Row) :
    Level.factor.Free (.token op.token :: rest) := by
  cases op <;> rfl

theorem free_sum_operator {op : BinaryOp} (h : op.isAdditive = true) (rest : Row) :
    Level.sum.Free (.token op.token :: rest) := by
  cases op <;> first | rfl | cases h

end Level

/-! ## What stands at the start of a row -/

/-- Whether a unit can begin with an item. -/
def Item.startsUnit (item : Item) : Bool := item.startsFactor || item.isNumeral

/-- Whether a factor starts can be seen from the item that a part was made of. -/
theorem startsFactor_partOf (item : Item) : (partOf item).startsFactor = item.startsFactor := by
  match item with
  | .token .add | .token .subtract | .token .multiply | .token .divide | .token .point
  | .token (.digit _) | .token (.var _) | .sqrt _ | .fraction _ _ | .parentheses _ | .power _
  | .call _ _ => rfl

/-- The test on the parts of a row is the one on the row. -/
theorem startsFactor_partsOf (row : Row) :
    ((partsOf row).head?.map Part.startsFactor).getD false = true ↔ StartsFactor row := by
  cases row with
  | nil => simp [StartsFactor]
  | cons item row => simp [StartsFactor, startsFactor_partOf]

/-- A unit, with or without powers, begins with an item that a unit can begin with. -/
theorem Derives.exists_head {l : Level} {row : Row} {e : Expr} (h : Derives l row e)
    (hl : l = .unit ∨ l = .raised) : ∃ item tail, row = item :: tail ∧ item.startsUnit = true := by
  induction h with
  | literal n =>
    obtain ⟨item, tail, hrow, hitem⟩ := n.exists_head
    exact ⟨item, tail, hrow, by rw [Item.startsUnit, hitem, Bool.or_true]⟩
  | bare _ ih => exact ih (Or.inl rfl)
  | power _ _ ih _ =>
    obtain ⟨item, tail, rfl, hitem⟩ := ih (Or.inr rfl)
    exact ⟨item, _, rfl, hitem⟩
  | «variable» | sqrt | parentheses | fraction | call => exact ⟨_, [], rfl, rfl⟩
  | signed | alone | juxtaposed | single | multiplied | lone | added => simp at hl

theorem Derives.ne_nil {l : Level} {row : Row} {e : Expr} (h : Derives l row e) : row ≠ [] := by
  induction h with
  | literal n => exact n.row_ne_nil
  | bare _ ih | alone _ ih | single _ ih | lone _ ih => exact ih
  | signed _ _ ih | juxtaposed _ _ _ _ ih => simp [ih]
  | «variable» | sqrt | parentheses | fraction | call | power | multiplied | added => simp

/-- No unit begins with a minus sign. -/
theorem takeMinuses_minuses (k : Nat) {row : Row} (h : ∀ tail, row ≠ Item.minus :: tail) :
    takeMinuses false (partsOf (List.replicate k Item.minus ++ row)) =
      (decide (k % 2 = 1), partsOf row) := by
  have hrow : ∀ b, takeMinuses b (partsOf row) = (b, partsOf row) := by
    intro b
    match row, h with
    | [], _ => rfl
    | .token .subtract :: tail, h => exact absurd rfl (h tail)
    | .token .add :: _, _ | .token .multiply :: _, _ | .token .divide :: _, _
    | .token .point :: _, _ | .token (.digit _) :: _, _ | .token (.var _) :: _, _ | .sqrt _ :: _, _
    | .fraction _ _ :: _, _ | .parentheses _ :: _, _ | .power _ :: _, _ | .call _ _ :: _, _ => rfl
  have hrun : ∀ b, takeMinuses b (partsOf (List.replicate k Item.minus ++ row)) =
      (b ^^ decide (k % 2 = 1), partsOf row) := by
    induction k with
    | zero => simpa using hrow
    | succ k ih =>
      intro b
      rw [List.replicate_succ, List.cons_append, partsOf_cons, Item.minus, partOf, takeMinuses]
      rw [← Item.minus, ih]
      have hk : (k + 1) % 2 = 1 ↔ ¬ k % 2 = 1 := by omega
      simp only [hk, decide_not]
      cases b <;> simp
  simpa using hrun false

/-- A row that begins with a unit begins with no minus. -/
theorem Item.ne_minus_of_startsUnit {item : Item} (h : item.startsUnit = true) (rest tail : Row) :
    item :: rest ≠ Item.minus :: tail := by
  rintro ⟨⟩
  cases h

/-! ## Signs -/

/-- A unit that is a number is a literal. -/
theorem Derives.number_eq {l : Level} {row : Row} {e : Expr} {x : Number} (h : Derives l row e)
    (hl : l = .unit ∨ l = .raised) (he : e = .number x) :
    ∃ n : Numeral, n.InRange ∧ x = n.number := by
  induction h with
  | literal n inRange => exact ⟨n, inRange, (Expr.number.inj he).symm⟩
  | bare _ ih => exact ih (Or.inl rfl) he
  | «variable» | sqrt | parentheses | fraction | call | power => cases he
  | signed | alone | juxtaposed | single | multiplied | lone | added => simp at hl

/-- The opposite of what a literal spells is always in range. -/
theorem Numeral.neg_number (n : Numeral) : n.number.neg = .ok n.number.opposite := by
  unfold number
  split
  · next h =>
    have hm : n.mantissa ≤ 9223372036854775808 := by
      have := h.2
      rw [maxWord] at this
      omega
    simp [Number.neg, Number.opposite, Number.simplify, Number.word, isWord, maxWord, hm]
  · rfl

/-- A minus in front of a number is part of the number, and in front of anything else it is a
product with minus one; the opposite is defined the same way. -/
theorem negated_eq {row : Row} {e : Expr} (h : Derives .raised row e) :
    negated e = .ok e.opposite := by
  cases e with
  | number x =>
    obtain ⟨n, -, rfl⟩ := h.number_eq (Or.inr rfl) rfl
    rw [negated, n.neg_number, ok_bind]
    rfl
  | var | sqrt | parentheses | power | binary | call => rfl

/-! ## Reading one step on -/

theorem factorOp?_token {op : BinaryOp} (h : op.isAdditive = false) :
    factorOp? op.token = some op := by
  cases op <;> first | rfl | cases h

theorem termOp?_token {op : BinaryOp} (h : op.isAdditive = true) :
    termOp? op.token = some op := by
  cases op <;> first | rfl | cases h

/-- Reading factors goes on behind a multiplication or a division. -/
theorem takeFactors_operator {op : BinaryOp} (h : op.isAdditive = false) (e : Expr)
    (ps : List Part) :
    takeFactors e (.token op.token :: ps) =
      takeFactor ps >>= fun r => takeFactors (.binary op e r.1) r.2 := by
  rw [takeFactors]
  simp only [factorOp?_token h]
  cases takeFactor ps <;> rfl

/-- Reading terms goes on behind an addition or a subtraction. -/
theorem takeTerms_operator {op : BinaryOp} (h : op.isAdditive = true) (e : Expr)
    (ps : List Part) :
    takeTerms e (.token op.token :: ps) =
      takeTerm ps >>= fun r => takeTerms (.binary op e r.1) r.2 := by
  rw [takeTerms]
  simp only [termOp?_token h]
  cases takeTerm ps <;> rfl

/-- Reading powers stops at what does not go on a signed unit. -/
theorem takePowers_of_free {rest : Row} (h : Level.signed.Free rest) (e : Expr) :
    takePowers e (partsOf rest) = .ok (e, partsOf rest) := by
  match rest, h with
  | [], _ => rfl
  | .token _ :: _, _ | .sqrt _ :: _, _ | .fraction _ _ :: _, _ | .parentheses _ :: _, _
  | .call _ _ :: _, _ => rfl

/-- Reading factors stops at what does not go on a sum. -/
theorem takeFactors_of_free {rest : Row} (h : Level.sum.Free rest) (e : Expr) :
    takeFactors e (partsOf rest) = .ok (e, partsOf rest) := by
  match rest, h with
  | [], _ => simp [takeFactors]
  | .token .multiply :: _, h | .token .divide :: _, h | .token (.digit _) :: _, h
  | .token (.var _) :: _, h | .sqrt _ :: _, h | .fraction _ _ :: _, h | .parentheses _ :: _, h
  | .power _ :: _, h | .call _ _ :: _, h => cases h
  | .token .add :: _, _ | .token .subtract :: _, _ | .token .point :: _, _ =>
    simp [takeFactors, partOf, factorOp?]

/-- A factor is a signed unit, multiplied by the factor behind it if one starts there. -/
theorem takeFactor_eq (ps : List Part) :
    takeFactor ps = takeSigned ps >>= fun r =>
      if (r.2.head?.map Part.startsFactor).getD false = true then
        takeFactor r.2 >>= fun s => .ok (.binary .multiply r.1 s.1, s.2)
      else .ok r := by
  rw [takeFactor]
  cases takeSigned ps <;> rfl

/-- Minuses in front of a unit are counted: an odd number of them negates it, an even number does
nothing. -/
theorem takeSigned_minuses (k : Nat) {row : Row} (h : ∀ tail, row ≠ Item.minus :: tail) :
    takeSigned (partsOf (List.replicate k Item.minus ++ row)) =
      takeRaised (partsOf row) >>= fun r =>
        if k % 2 = 1 then negated r.1 >>= fun e => .ok (e, r.2) else .ok r := by
  rw [takeSigned, takeMinuses_minuses k h, takeRaised, bind_assoc]
  simp only [decide_eq_true_eq]
  rfl

/-- Arguments are read one by one, and nothing else is required of a call. -/
theorem ofRows_eq_ok {args : List Row} {es : List Expr} (len : args.length = es.length)
    (h : ∀ p ∈ args.zip es, ofRow p.1 = .ok p.2) : ofRows args = .ok es := by
  induction args generalizing es with
  | nil =>
    rw [List.length_nil, eq_comm, List.length_eq_zero_iff] at len
    rw [len]
    rfl
  | cons row rows ih =>
    match es, len with
    | e :: es, len =>
      have hrow : ofParts (partsOf row) = .ok e := h (row, e) (by simp)
      have hrows : ofRows rows = .ok es :=
        ih (by simpa using len) fun p hp => h p (by simp [hp])
      rw [ofRows, hrow, ok_bind, hrows, ok_bind]
      rfl

/-! ## Reading as far as a level goes -/

namespace Level

/-- Nothing follows that an expression of a level could go on with. -/
def Done : Level → Row → Prop
  | unit, _ => True
  | raised, rest | signed, rest => signed.Free rest
  | factor, rest => factor.Free rest
  | term, rest => sum.Free rest
  | sum, rest => rest = [] ∨ ∃ tail : Row, rest = .token .point :: tail

/-- Where a level is done, going on with it gives what has been read. -/
theorem Done.resume_eq {l : Level} {rest : Row} (h : l.Done rest) (e : Expr) :
    l.resume e (partsOf rest) = .ok (e, partsOf rest) := by
  cases l with
  | unit | signed | factor => rfl
  | raised => exact takePowers_of_free h e
  | term => exact takeFactors_of_free h e
  | sum => obtain rfl | ⟨tail, rfl⟩ := h <;> simp [resume, takeTerms, partOf, termOp?]

/-- What follows a factor without being read with it does not belong to the term, or is an
operator. -/
theorem Free.done_or_factor_operator {row : Row} (h : Level.factor.Free row) :
    Level.term.Done row ∨
      ∃ (op : BinaryOp) (rest : Row), op.isAdditive = false ∧ row = .token op.token :: rest := by
  match row, h with
  | [], _ | .token .add :: _, _ | .token .subtract :: _, _ | .token .point :: _, _ =>
    exact Or.inl rfl
  | .token .multiply :: rest, _ => exact Or.inr ⟨.multiply, rest, rfl, rfl⟩
  | .token .divide :: rest, _ => exact Or.inr ⟨.divide, rest, rfl, rfl⟩
  | .token (.digit _) :: _, h | .token (.var _) :: _, h | .sqrt _ :: _, h | .fraction _ _ :: _, h
  | .parentheses _ :: _, h | .power _ :: _, h | .call _ _ :: _, h => cases h

/-- Behind a term there is nothing, a point or an operator. -/
theorem Free.done_or_term_operator {row : Row} (h : Level.sum.Free row) :
    Level.sum.Done row ∨
      ∃ (op : BinaryOp) (rest : Row), op.isAdditive = true ∧ row = .token op.token :: rest := by
  match row, h with
  | [], _ => exact Or.inl (Or.inl rfl)
  | .token .point :: rest, _ => exact Or.inl (Or.inr ⟨rest, rfl⟩)
  | .token .add :: rest, _ => exact Or.inr ⟨.add, rest, rfl, rfl⟩
  | .token .subtract :: rest, _ => exact Or.inr ⟨.subtract, rest, rfl, rfl⟩
  | .token .multiply :: _, h | .token .divide :: _, h | .token (.digit _) :: _, h
  | .token (.var _) :: _, h | .sqrt _ :: _, h | .fraction _ _ :: _, h | .parentheses _ :: _, h
  | .power _ :: _, h | .call _ _ :: _, h => cases h

/-- The expressions of a level are those of the level below it, one or several of them
joined by operators. They are read from the left, and reading goes on as long as an
operator follows. -/
structure Joined (part whole : Level) (additive : Bool) : Prop where
  take_eq (ps : List Part) : whole.take ps = part.take ps >>= fun r => whole.resume r.1 r.2
  resume_operator {op : BinaryOp} (h : op.isAdditive = additive) (e : Expr) (ps : List Part) :
    whole.resume e (.token op.token :: ps) =
      part.take ps >>= fun r => whole.resume (.binary op e r.1) r.2
  free_operator {op : BinaryOp} (h : op.isAdditive = additive) (rest : Row) :
    whole.Free (.token op.token :: rest)
  part_free {rest : Row} (h : whole.Free rest) : part.Free rest
  part_done {rest : Row} (h : whole.Free rest) : part.Done rest
  done_or_operator {row : Row} (h : part.Done row) :
    whole.Done row ∨ ∃ (op : BinaryOp) (rest : Row),
      op.isAdditive = additive ∧ row = .token op.token :: rest
  single {row : Row} {e : Expr} (h : Derives part row e) : Derives whole row e
  join {op : BinaryOp} {row next : Row} {e f : Expr} (additive : op.isAdditive = additive)
    (h : Derives whole row e) (hn : Derives part next f) :
    Derives whole (row ++ .token op.token :: next) (.binary op e f)
  single_or_join {row : Row} {e : Expr} (h : Derives whole row e) :
    Derives part row e ∨ ∃ (op : BinaryOp) (first last : Row) (a b : Expr),
      op.isAdditive = additive ∧ row = first ++ .token op.token :: last ∧
        Derives whole first a ∧ Derives part last b

/-- Terms are factors joined by multiplication and division. -/
theorem term_joined : Joined .factor .term false where
  take_eq _ := rfl
  resume_operator := takeFactors_operator
  free_operator {op} _ rest := free_factor_operator op rest
  part_free h := h
  part_done h := h
  done_or_operator := Free.done_or_factor_operator
  single := .single
  join := .multiplied
  single_or_join h := by
    cases h with
    | single h => exact .inl h
    | multiplied additive h hn => exact .inr ⟨_, _, _, _, _, additive, rfl, h, hn⟩

/-- Sums are terms joined by addition and subtraction. -/
theorem sum_joined : Joined .term .sum true where
  take_eq _ := rfl
  resume_operator := takeTerms_operator
  free_operator := free_sum_operator
  part_free h := h.factor
  part_done h := h
  done_or_operator := Free.done_or_term_operator
  single := .lone
  join := .added
  single_or_join h := by
    cases h with
    | lone h => exact .inl h
    | added additive h hn => exact .inr ⟨_, _, _, _, _, additive, rfl, h, hn⟩

section Joined

variable {part whole : Level} {additive : Bool} {row next rest : Row} {e : Expr}

/-- A whole that consists of one part is read as that part and then not gone on. -/
theorem Joined.take_single (j : Joined part whole additive) (h : whole.Free rest)
    (hrow : part.take (partsOf (row ++ rest)) = part.resume e (partsOf rest)) :
    whole.take (partsOf (row ++ rest)) = whole.resume e (partsOf rest) := by
  rw [j.take_eq, hrow, (j.part_done h).resume_eq, ok_bind]

/-- What is read behind an operator is joined with what was read before it. -/
theorem Joined.take_join (j : Joined part whole additive) {op : BinaryOp}
    (h : op.isAdditive = additive)
    (hrow : whole.take (partsOf (row ++ .token op.token :: (next ++ rest))) =
      whole.resume e (partsOf (.token op.token :: (next ++ rest)))) :
    whole.take (partsOf (row ++ .token op.token :: next ++ rest)) =
      part.take (partsOf (next ++ rest)) >>= fun r => whole.resume (.binary op e r.1) r.2 := by
  rw [partsOf_cons, partOf, j.resume_operator h] at hrow
  rw [List.append_assoc, List.cons_append, hrow]

end Joined

end Level

/-! ## What is derived is read -/

namespace Level

/-- A row is read as an expression of a level, whatever it is followed by. -/
def Takes (l : Level) (row : Row) (e : Expr) : Prop :=
  ∀ ⦃rest : Row⦄, Ends row rest → l.Free rest →
    l.take (partsOf (row ++ rest)) = l.resume e (partsOf rest)

variable {row next : Row} {e f : Expr}

/-- A row is read from its derivation as a sum, as nothing stands behind it. -/
theorem Takes.ofRow_eq (h : sum.Takes row e) : ofRow row = .ok e := by
  have hsum : takeSum (partsOf row) = .ok (e, []) := by
    have hread := h (ends_nil row) (free_nil _)
    rw [List.append_nil, take] at hread
    have hdone : sum.Done [] := .inl rfl
    exact hread.trans (hdone.resume_eq e)
  rw [ofRow, ofParts_of_takeSum hsum, if_pos rfl]

theorem Takes.ofParts_eq (h : sum.Takes row e) : ofParts (partsOf row) = .ok e := h.ofRow_eq

theorem Takes.bare (h : unit.Takes row e) : raised.Takes row e := by
  intro rest hends _
  have hrow : takeUnit _ = .ok (e, partsOf rest) := h hends (free_unit rest)
  rw [take, takeRaised, hrow]
  rfl

/-- A power is read behind what it raises. -/
theorem Takes.power {exponent : Row} {x : Expr} (h : raised.Takes row e)
    (hx : sum.Takes exponent x) : raised.Takes (row ++ [.power exponent]) (.power e x) := by
  intro rest _ _
  rw [List.append_assoc, List.singleton_append, h (Ends.of_power _ _ _) (free_raised _)]
  rw [resume, partsOf_cons, partOf, takePowers, hx.ofParts_eq, ok_bind]

/-- The number of minus signs decides whether the opposite is what was read. -/
theorem Takes.signed (k : Nat) (hrow : Derives .raised row e) (h : raised.Takes row e) :
    Level.signed.Takes (List.replicate k Item.minus ++ row)
      (if k % 2 = 1 then e.opposite else e) := by
  intro rest hends hfree
  obtain ⟨item, tail, rfl, hitem⟩ := hrow.exists_head (Or.inr rfl)
  have hread := h (hends.congr (openLiteral_minuses_append k _)) (free_raised _)
  rw [take, Done.resume_eq (l := .raised) hfree] at hread
  have hminus : ∀ t, item :: tail ++ rest ≠ Item.minus :: t :=
    Item.ne_minus_of_startsUnit hitem (tail ++ rest)
  rw [List.append_assoc, take, takeSigned_minuses k hminus, hread, ok_bind]
  by_cases hk : k % 2 = 1
  · rw [if_pos hk, if_pos hk]
    dsimp only
    rw [negated_eq hrow, ok_bind]
    rfl
  · rw [if_neg hk, if_neg hk]
    rfl

/-- A signed unit is a factor if no factor follows it. -/
theorem Takes.alone (h : Level.signed.Takes row e) : factor.Takes row e := by
  intro rest hends hfree
  have hrow : takeSigned _ = .ok (e, partsOf rest) := h hends hfree.signed
  rw [take, takeFactor_eq, hrow, ok_bind,
    if_neg fun hs => hfree.not_startsFactor ((startsFactor_partsOf rest).mp hs)]
  rfl

/-- A factor behind a signed unit is multiplied with it, provided that the two are not read as one
number or call. -/
theorem Takes.juxtaposed (h : Level.signed.Takes row e) (hn : factor.Takes next f)
    (starts : StartsFactor next) (ends : Ends row next) :
    factor.Takes (row ++ next) (.binary .multiply e f) := by
  intro rest hends hfree
  have hnext : next ≠ [] := starts.ne_nil
  have hrow : takeSigned _ = .ok (e, partsOf (next ++ rest)) :=
    h ((ends_append_iff hnext rest).mpr ends) (free_signed_of_startsFactor (starts.append rest))
  have hlast : takeFactor _ = .ok (f, partsOf rest) :=
    hn (hends.congr (openLiteral_append_of_ends ends hnext)) hfree
  rw [List.append_assoc, take, takeFactor_eq, hrow, ok_bind]
  dsimp only
  rw [if_pos ((startsFactor_partsOf _).mpr (starts.append rest)), hlast]
  rfl

theorem Joined.takes_single {part whole : Level} {additive : Bool}
    (j : Joined part whole additive) (h : part.Takes row e) : whole.Takes row e :=
  fun _ hends hfree => j.take_single hfree (h hends (j.part_free hfree))

/-- A whole and a part with an operator between them are read as one whole, the operator applying to
all that stands before it. -/
theorem Joined.takes_join {part whole : Level} {additive : Bool}
    (j : Joined part whole additive) {op : BinaryOp} (additive : op.isAdditive = additive)
    (h : whole.Takes row e) (hn : part.Takes next f) :
    whole.Takes (row ++ .token op.token :: next) (.binary op e f) := by
  intro rest hends hfree
  have hlast := hn (hends.congr (openLiteral_append_operator row next op)) (j.part_free hfree)
  rw [j.take_join additive (h (Ends.of_operator _ _ _) (j.free_operator additive _)), hlast,
    (j.part_done hfree).resume_eq, ok_bind]

end Level

/-- A row that is an expression of a level is read as that, up to where it does not go on. -/
theorem Derives.take {l : Level} {row : Row} {e : Expr} (h : Derives l row e) : l.Takes row e := by
  induction h with
  | literal n hn =>
    intro rest hends _
    rw [Level.take, takeUnit_numeral n hends, if_pos hn]
    rfl
  | «variable» name => exact fun _ _ _ => rfl
  | sqrt _ ih | parentheses _ ih =>
    intro rest _ _
    simp [Level.take, Level.resume, partOf, takeUnit, ih.ofParts_eq]
  | fraction _ _ iha ihb =>
    intro rest _ _
    simp [Level.take, Level.resume, partOf, takeUnit, iha.ofParts_eq, ihb.ofParts_eq]
  | call f len _ ih =>
    intro rest _ _
    have hargs := ofRows_eq_ok len fun p hp => (ih p hp).ofRow_eq
    simp [Level.take, Level.resume, partOf, takeUnit, hargs]
  | bare _ ih => exact ih.bare
  | power _ _ ih ihx => exact ih.power ihx
  | signed k h ih => exact .signed k h ih
  | alone _ ih => exact ih.alone
  | juxtaposed _ _ starts ends ih ihn => exact ih.juxtaposed ihn starts ends
  | single _ ih => exact Level.term_joined.takes_single ih
  | multiplied additive _ _ ih ihn => exact Level.term_joined.takes_join additive ih ihn
  | lone _ ih => exact Level.sum_joined.takes_single ih
  | added additive _ _ ih ihn => exact Level.sum_joined.takes_join additive ih ihn

/-- A row that is an expression is read as that expression. -/
theorem Derives.ofRow_eq {row : Row} {e : Expr} (h : Derives .sum row e) : ofRow row = .ok e :=
  h.take.ofRow_eq

end Mathpad
