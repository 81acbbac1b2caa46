import Mathpad.Proofs.Evaluation
import Mathpad.Proofs.PlainNotation
import Mathpad.Proofs.Printing
import Mathpad.Proofs.Scrolling
import Mathpad.Proofs.Upgrading

/-!
# Results that are read back

A result takes the place of the row that it was computed from, and is then a row like any other: its
digits are a literal, and its sign a minus sign in front of one. What is read back has the value of the
result, and is written the same (`Row.ofNumber_eq_of_value_eq`), with two exceptions. A numerator of
`-2 ^ 63` has digits that fit no word, so it is read as a decimal and the fraction is gone; and one
decimal, which comes from changing the sign of the largest one, has digits that are out of range.

So replacing a row by its result can be repeated without any effect if and only if the result is none
of these (`Session.replaceWithResult_again_iff`).
-/
set_option autoImplicit false

namespace Mathpad

/-! ## Rows of numbers -/

/-- An integer as a decimal is written like an integer. -/
theorem Decimal.plain_ofInt (n : Int) : (ofInt n).plain = (toString n).toList := by
  have hsplit : (ofInt n).splitAtPoint = (digitsOf n.natAbs, []) := by
    rw [splitAtPoint, if_pos (show 0 ≤ (ofInt n).exponent from le_rfl)]
    show (if n.natAbs = 0 then ['0'] else digitsOf n.natAbs ++ List.replicate 0 '0', []) = _
    by_cases hzero : n.natAbs = 0
    · rw [if_pos hzero, hzero]
      rfl
    · rw [if_neg hzero, List.replicate_zero, List.append_nil]
  rw [Number.toList_toString_int, plain, hsplit]
  show (if (decide (n < 0) && n.natAbs != 0) = true then '-' :: digitsOf n.natAbs
    else digitsOf n.natAbs) = _
  by_cases hneg : n < 0
  · rw [if_pos hneg, if_pos]
    simp [hneg]
    omega
  · rw [if_neg hneg, if_neg]
    simp [hneg]

/-- The row of a fraction with a denominator. -/
theorem Row.ofNumber_ratio {n d : Int} (hd : d ≠ 1) :
    Row.ofNumber (.ratio n d) =
      [.fraction (ofChars (Decimal.ofInt n).plain) (ofChars (Decimal.ofInt d).plain)] := by
  rw [ofNumber, if_neg hd, Decimal.plain_ofInt, Decimal.plain_ofInt]

/-- Any other row of a number has the digits of a decimal. -/
theorem Number.exists_plain {x : Number} (h : x.isQuotient = false) :
    ∃ d : Decimal, Row.ofNumber x = Row.ofChars d.plain ∧ d.value = x.value := by
  cases x with
  | ratio n d =>
    obtain rfl : d = 1 := by simpa [isQuotient] using h
    refine ⟨.ofInt n, ?_, ?_⟩
    · rw [Row.ofNumber, if_pos rfl, Decimal.plain_ofInt]
    · rw [Decimal.value_ofInt, value, Int.cast_one, div_one]
  | decimal v a => exact ⟨v, rfl, rfl⟩

/-- Numbers without denominators have one row if they have one value. -/
theorem Row.ofNumber_eq_of_value_eq {x y : Number} (hx : x.isQuotient = false)
    (hy : y.isQuotient = false) (h : x.value = y.value) : Row.ofNumber x = Row.ofNumber y := by
  obtain ⟨d, hrow, hd⟩ := x.exists_plain hx
  obtain ⟨d', hrow', hd'⟩ := y.exists_plain hy
  rw [hrow, hrow', Decimal.plain_eq_of_value_eq (hd.trans (h.trans hd'.symm))]

/-! ## Reading rows of numbers -/

namespace Number

/-- A number as it is read: without a denominator, and exact. -/
def IsRead (x : Number) : Prop := x.isQuotient = false ∧ x.denoise = x

/-- A literal is no quotient, and there is no noise in it, as it is exact. -/
theorem isRead_number (n : Numeral) : n.number.IsRead := by
  unfold Numeral.number
  split <;> exact ⟨rfl, rfl⟩

/-- The opposite of a literal is no quotient, and exact. -/
theorem isRead_opposite (n : Numeral) : n.number.opposite.IsRead := by
  unfold Numeral.number
  split <;> exact ⟨rfl, rfl⟩

/-- The characters of a literal, perhaps behind a minus sign, are read as it. -/
theorem Spelled.reads {minus : Bool} {cs : List Char} {e : Expr} (h : Spelled minus false cs e) :
    ∃ y : Number, e = .number y ∧ y.IsRead ∧ Derives .sum (Row.ofChars cs) e := by
  cases h with
  | @literal _ n h =>
    rw [h.row_eq]
    exact ⟨_, rfl, isRead_number n, .lone h.derives.term_of_unit⟩
  | @negative cs n h =>
    have hrow : Row.ofChars ('-' :: cs) = List.replicate 1 Item.minus ++ n.row := by
      rw [← h.row_eq]
      simp [Row.ofChars, Token.ofChar?, Item.minus]
    rw [hrow]
    exact ⟨_, rfl, isRead_opposite n, .lone (.single (.alone (.signed 1 (.bare h.derives))))⟩

end Number

/-- A decimal that can be represented is read as a number of its value. -/
theorem Decimal.plain_reads {d : Decimal} (hd : d.Stored) (hrep : d.Representable) :
    ∃ y : Number, Derives .sum (Row.ofChars d.plain) (.number y) ∧ y.IsRead ∧ y.value = d.value ∧
      (d.WrittenInFull → y = .decimal d .exact) := by
  obtain ⟨y, hspelled, hvalue, hfull⟩ := Number.spelled_decimal hd hrep.size .exact
  have htext : (Number.decimal d .exact).text.toList = d.plain := by simp [Number.text]
  rw [htext] at hspelled
  obtain ⟨z, hz, hread, hderives⟩ := hspelled.reads
  cases hz
  exact ⟨y, hderives, hread, hvalue, hfull⟩

theorem Decimal.ofInt_word_inRange {n : Int} (h : isWord n = true) : (ofInt n).InRange := by
  have hfew : digitCount n.natAbs ≤ precision :=
    digitCount_le (by decide) ((Number.natAbs_lt_of_isWord h).trans (by decide))
  exact (fit_inRange (d := ofInt n) hfew).of_ok (Number.fit_word h)

/-- A word is read as itself, but for the least one. -/
theorem Number.word_reads {n : Int} (h : isWord n = true) (hleast : n ≠ -maxWord - 1) :
    Derives .sum (Row.ofChars (Decimal.ofInt n).plain) (.number (.ratio n 1)) := by
  have hspelled := spelled_int h
  rw [ofSpelledInt_eq h hleast, ← Decimal.plain_ofInt] at hspelled
  obtain ⟨_, -, -, hderives⟩ := hspelled.reads
  exact hderives

/-! ## Results -/

namespace Number

/-- The largest decimal with its sign changed, which rounds it out of the range. -/
def minusLargest : Number := .decimal ⟨true, 7922816251426433759354395034, 1⟩ .exact

/-- The numbers whose rows are not read as numbers with these rows. -/
inductive Fragile : Number → Prop
  | least {d : Int} (hd : d ≠ 1) : Fragile (.ratio (-maxWord - 1) d)
  | largest : Fragile minusLargest

/-- What evaluating a row can give. -/
def IsResult (x : Number) : Prop := x.Stored ∧ (x.Representable ∨ x = minusLargest)

theorem InRange.isResult {x : Number} (h : x.InRange) : x.IsResult :=
  ⟨h.stored, .inl h.representable⟩

/-- The number of a literal can be stored and written. -/
theorem number_representable {n : Numeral} (h : n.InRange) : n.number.Representable := by
  unfold Numeral.number
  split
  · next hword =>
    refine representable_ofRat (q := (n.mantissa : Int)) ⟨?_, rfl⟩
    simpa [isWord, maxWord] using hword.2
  · refine ⟨neg_le_neg (by exact_mod_cast h.2), ?_⟩
    have hzero : (-(n.places : Int)).toNat = 0 := by omega
    simpa [hzero] using h.1

theorem isResult_number {n : Numeral} (h : n.InRange) : n.number.IsResult :=
  ⟨n.number_stored h, .inl (number_representable h)⟩

/-- The opposite of a literal can be a result: only that of the largest decimal is out of range. -/
theorem isResult_opposite {n : Numeral} (h : n.InRange) : n.number.opposite.IsResult := by
  refine ⟨n.opposite_stored (n.number_stored h), ?_⟩
  have hrep := number_representable h
  unfold Numeral.number at hrep ⊢
  split
  · next hword =>
    refine .inl (representable_ofRat (q := (-n.mantissa : Int)) ⟨?_, rfl⟩)
    have hm := hword.2
    rw [maxWord] at hm
    simp [isWord, maxWord]
    omega
  · next hword =>
    rw [if_neg hword] at hrep
    by_cases hlargest : Decimal.IsLargest ⟨false, n.mantissa, -(n.places : Int)⟩
    · obtain ⟨hdigits, hplaces⟩ := hlargest
      dsimp only at hdigits hplaces
      rw [hdigits, hplaces]
      exact .inr (by decide +kernel)
    · exact .inl (Decimal.negate_representable hrep hlargest)

/-- A result that is cleared of noise can be a result. -/
theorem IsResult.denoise {x : Number} (h : x.IsResult) : x.denoise.IsResult := by
  obtain ⟨hstored, hrep⟩ := h
  cases hstored with
  | ratio hq => exact ⟨.ratio hq, hrep⟩
  | @decimal v hv a =>
    cases a with
    | exact => exact ⟨.decimal hv .exact, hrep⟩
    | approximate =>
      rcases Decimal.denoise_eq_or_inRange hv.places with hsame | hrange
      · rw [Number.denoise, hsame]
        exact ⟨.decimal hv .approximate, hrep⟩
      · exact (InRange.decimal hrange .approximate).isResult

end Number

/-- A function has a value in range, if it has one. -/
theorem NamedFunction.eval_inRange_of_ok (f : NamedFunction) {args : List Number}
    (h : ∀ x ∈ args, x.Lowest) (settings : EvalSettings) :
    Meets (f.eval args settings) Number.InRange fun _ => True := by
  by_cases hlen : args.length = f.arity
  · exact (f.eval_inRange hlen h settings).mono (fun _ hx => hx) fun _ _ => trivial
  · unfold NamedFunction.eval
    split
    · exact absurd rfl hlen
    · exact absurd rfl hlen
    · exact absurd rfl hlen
    · trivial

/-- The value of a row. -/
def Row.value (settings : EvalSettings) (row : Row) : Outcome Number := do
  (← Expr.ofRow row).eval settings

/-- Whatever a row evaluates to is a result in this sense: literals and their opposites are, and all
operations stay in range. -/
theorem Row.value_isResult (settings : EvalSettings) (row : Row) :
    Meets (row.value settings) Number.IsResult fun _ => True := by
  refine ((understood row).mono (fun _ h => h) fun _ _ => trivial).bind fun e he => ?_
  -- the numbers in the expression are literals and their opposites
  have hnumbers : e.Everywhere fun u => ∀ x, u = .number x → x.IsResult := by
    have htrue := Row.everywhere_of_forall (P := fun _ => True) (fun _ => trivial) row
    refine he.everywhere (fun n hn => ⟨?_, ?_⟩) ?_ ?_ ?_ htrue
    · rintro _ ⟨⟩
      exact Number.isResult_number hn
    · rintro _ ⟨⟩
      exact Number.isResult_opposite hn
    · rintro _ ⟨⟩
      exact ⟨Number.minusOne_stored, .inl (Number.representable_ofRat (q := -1) ⟨rfl, rfl⟩)⟩
    · rintro _ hcomposed x rfl
      exact hcomposed.elim
    · rintro f args es - - x ⟨⟩
  exact Expr.eval_meets (fun x hx => hx x rfl) (fun _ => Number.InRange.isResult)
    (fun _ hx => hx.1.lowest) (fun _ _ => trivial)
    (fun f _ _ _ _ hargs => f.eval_inRange_of_ok hargs settings) hnumbers

/-! ## Reading a result back -/

open Number

/-- Evaluating the row of a result gives a number of its value that has the same row, unless the result
is fragile. There is no noise to be removed from it. -/
theorem Row.value_ofNumber {v : Number} (hv : v.IsResult) (hfragile : ¬v.Fragile)
    (settings : EvalSettings) :
    ∃ y, (Row.ofNumber v).value settings = .ok y ∧ y.denoise = y ∧ y.value = v.value ∧
      Row.ofNumber y = Row.ofNumber v := by
  obtain ⟨hstored, hrep⟩ := hv
  -- without a denominator there is a literal, perhaps behind a minus sign
  have hread : ∀ d : Decimal, d.Stored → d.Representable → v.isQuotient = false →
      Row.ofNumber v = Row.ofChars d.plain → d.value = v.value →
      ∃ y, (Row.ofNumber v).value settings = .ok y ∧ y.denoise = y ∧ y.value = v.value ∧
        Row.ofNumber y = Row.ofNumber v := by
    intro d hd hrep hquotient hrow hvalue
    obtain ⟨y, hderives, ⟨hy, hsame⟩, hyvalue, -⟩ := Decimal.plain_reads hd hrep
    refine ⟨y, ?_, hsame, hyvalue.trans hvalue, ?_⟩
    · rw [hrow, Row.value, hderives.ofRow_eq, ok_bind, Expr.eval]
    · exact Row.ofNumber_eq_of_value_eq hy hquotient (hyvalue.trans hvalue)
  cases hstored with
  | @decimal w hw a =>
    refine hread w hw (hrep.resolve_right fun hlargest => hfragile ?_) rfl rfl rfl
    rw [hlargest]
    exact .largest
  | @ratio q hq =>
    by_cases hone : (q.den : Int) = 1
    · have hrange := Decimal.ofInt_word_inRange hq.1
      have hquotient : (ofRat q).isQuotient = false := by simp [ofRat, isQuotient, hone]
      refine hread (.ofInt q.num) hrange.stored hrange.representable hquotient ?_ ?_
      · rw [ofRat, Row.ofNumber, if_pos hone, Decimal.plain_ofInt]
      · rw [Decimal.value_ofInt, ofRat, Number.value, hone, Int.cast_one, div_one]
    · -- both parts are read as they are, since neither is beyond the words
      have hleast : q.num ≠ -maxWord - 1 := by
        intro hleast
        refine hfragile ?_
        rw [ofRat, hleast]
        exact .least hone
      have hden : (q.den : Int) ≠ -maxWord - 1 := by
        rw [maxWord]
        omega
      have hderives : Derives .sum (Row.ofNumber (ofRat q)) (.binary .divide
          (.number (.ratio q.num 1)) (.number (.ratio q.den 1))) := by
        rw [ofRat, Row.ofNumber_ratio hone]
        exact .lone (Derives.fraction (word_reads hq.1 hleast) (word_reads hq.2 hden)).term_of_unit
      refine ⟨ofRat q, ?_, rfl, rfl, rfl⟩
      rw [Row.value, hderives.ofRow_eq, ok_bind, Expr.eval, Expr.eval, Expr.eval, ok_bind, ok_bind]
      exact div_parts hq

/-- The digits of the largest decimal after its sign was changed are out of range. -/
theorem ofRow_minusLargest : (Expr.ofRow (Row.ofNumber minusLargest)).toBool = false := by
  decide +kernel

/-- A quotient of a decimal is a decimal. -/
theorem Number.div_decimal (w : Decimal) (a : Accuracy) (y : Number) :
    Meets (div (.decimal w a) y) (fun x => ∃ w' a', x = .decimal w' a') fun _ => True := by
  unfold div
  split
  · trivial
  · exact Meets.after fun v => Meets.after fun v' => Meets.after fun q => ⟨q, _, rfl⟩

/-- The row of a number without a denominator is no fraction. -/
theorem Row.ofNumber_decimal_ne (w : Decimal) (a : Accuracy) (top bottom : Row) :
    Row.ofNumber (Number.decimal w a).denoise ≠ [.fraction top bottom] := by
  have hchars : ∀ cs : List Char, Row.ofChars cs ≠ [.fraction top bottom] := by
    intro cs hcs
    have hmem : Item.fraction top bottom ∈ Row.ofChars cs := by simp [hcs]
    simp [Row.ofChars] at hmem
  cases a <;> exact hchars _

/-- Evaluating the row of a fragile result does not give a number with the same row. -/
theorem Row.value_fragile {v : Number} (hv : v.IsResult) (hfragile : v.Fragile)
    (settings : EvalSettings) :
    Meets ((Row.ofNumber v).value settings) (fun y => Row.ofNumber y.denoise ≠ Row.ofNumber v)
      fun _ => True := by
  cases hfragile with
  | largest =>
    have hrow := ofRow_minusLargest
    rw [Row.value]
    cases hread : Expr.ofRow (Row.ofNumber minusLargest) with
    | ok e =>
      rw [hread] at hrow
      cases hrow
    | error f => trivial
  | @least d hd =>
    -- the numerator is read as a decimal, and so there is no fraction
    have hword : isWord (-maxWord - 1) = true := by decide
    have hdword : isWord d = true ∧ d ≠ -maxWord - 1 := by
      obtain ⟨-, ⟨-, hd, hpos, -⟩ | hlargest⟩ := hv
      · exact ⟨hd, by rw [maxWord]; omega⟩
      · cases hlargest
    have hrange := Decimal.ofInt_word_inRange hword
    obtain ⟨y, htop, -, -, hfull⟩ := Decimal.plain_reads hrange.stored hrange.representable
    rw [hfull (.inr ⟨rfl, by decide⟩)] at htop
    have hderives := Derives.fraction htop (Number.word_reads hdword.1 hdword.2)
    rw [Row.ofNumber_ratio hd, Row.value, (Derives.lone hderives.term_of_unit).ofRow_eq, ok_bind,
      Expr.eval, Expr.eval, Expr.eval, ok_bind, ok_bind]
    refine (Number.div_decimal _ _ _).imp ?_
    rintro _ ⟨w, a, rfl⟩
    exact Row.ofNumber_decimal_ne w a _ _

/-! ## Replacing a row by its result -/

namespace Session

variable {s : Session} {settings : EvalSettings}

/-- Evaluating in a session gives the value of its root, and changes nothing. -/
theorem ensures_evaluate {Q : Number → Session → Prop} {E : Fault → Session → Prop} :
    Ensures (evaluate settings) s Q E ↔
      Meets (s.root.value settings) (fun y => Q y s) fun f => E f s := by
  show Ensures (liftM (Expr.ofRow s.root) >>= fun e : Expr => liftM (e.eval settings)) s Q E ↔ _
  rw [ensures_bind, ensures_lift, Row.value]
  cases Expr.ofRow s.root with
  | ok e => exact ensures_lift
  | error f => exact Iff.rfl

/-- The row of the result takes the place of the row, the cursor is put behind it, and is shown. -/
theorem ensures_replaceWithResult {Q : Number → Session → Prop} {E : Fault → Session → Prop} :
    Ensures (replaceWithResult settings) s Q E ↔
      Meets (s.root.value settings)
        (fun y => Ensures showCursor
          ⟨Row.ofNumber y.denoise, [((Row.ofNumber y.denoise).length : Int)], s.viewport⟩
          (fun _ t => Q y.denoise t) E)
        fun f => E f s := by
  rw [replaceWithResult, ensures_bind, ensures_evaluate]
  cases s.root.value settings with
  | ok y => exact ensures_bind
  | error f => exact Iff.rfl

/-- Where a row has been replaced by its result, the new row has the same value and replacing it by its
result changes nothing, if and only if the result is not fragile. -/
theorem replaceWithResult_again_iff (settings again : EvalSettings) (s : Session) :
    Ensures (replaceWithResult settings) s
      (fun v t =>
        (Ensures (evaluate again) t (fun y u => u = t ∧ y.value = v.value) (fun _ _ => False) ∧
          Ensures (replaceWithResult again) t
            (fun y u => y.value = v.value ∧ u.root = t.root ∧ u.path = t.path) fun _ _ => False) ↔
        ¬v.Fragile)
      fun _ _ => True := by
  rw [ensures_replaceWithResult]
  refine (s.root.value_isResult settings).imp fun x hx => ?_
  have hv := hx.denoise
  generalize x.denoise = v at hv
  refine (showCursor_again _).imp ?_
  rintro _ t ⟨hroot, hpath, hagain⟩
  dsimp only at hroot hpath
  constructor
  · rintro ⟨-, hsame⟩ hfragile
    rw [ensures_replaceWithResult, hroot] at hsame
    have hboth := hsame.and (Row.value_fragile hv hfragile again)
    obtain ⟨y, -, hshown, hne⟩ := (hboth.mono (fun _ h => h) fun _ h => h.1).exists_ok
    -- showing the cursor cannot bring the row back
    refine ((hshown.and (showCursor_again _)).mono ?_ fun _ _ h => h.1).elim
    rintro _ u ⟨⟨-, hu, -⟩, hu', -⟩
    exact hne (hu'.symm.trans hu)
  · intro hfragile
    obtain ⟨y, hy, hsame, hvalue, hrow⟩ := Row.value_ofNumber hv hfragile again
    rw [ensures_evaluate, ensures_replaceWithResult, hroot, hy]
    refine ⟨⟨rfl, hvalue⟩, ?_⟩
    rw [meets_ok, hsame, hrow, ← hpath, ← hroot]
    exact hagain.imp fun _ u hu => ⟨hvalue, hu⟩

/-- The fraction of `-9223372036854775807 - 1` and three. -/
def leastThird : Row :=
  [.fraction
    (Item.minus :: (Numeral.ofNat 9223372036854775807).row ++ Item.minus :: (Numeral.ofNat 1).row)
    (Numeral.ofNat 3).row]

/-- A third of the least word is a fraction, and its row is read as a decimal of another value. -/
theorem replaceWithResult_least_third :
    Ensures (replaceWithResult {}) { root := leastThird }
      (fun v t => v = .ratio (-9223372036854775808) 3 ∧
        Ensures (evaluate {}) t (fun y _ => y.value ≠ v.value) fun _ _ => False)
      fun _ _ => False := by
  have hvalue : leastThird.value {} = .ok (.ratio (-9223372036854775808) 3) := by decide +kernel
  have hagain : (Row.ofNumber (.ratio (-9223372036854775808) 3)).value {} =
      .ok (.decimal ⟨true, 3074457345618258602666666667, -9⟩ .exact) := by decide +kernel
  rw [ensures_replaceWithResult, hvalue, meets_ok]
  refine showCursor_windowless (by rfl) ⟨rfl, ?_⟩
  rw [ensures_evaluate]
  refine (congrArg (Meets · _ _) hagain).mpr ?_
  simp only [meets_ok, Number.denoise, Number.value, Decimal.value_eq]
  norm_num

end Session

end Mathpad
