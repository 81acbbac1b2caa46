import Mathpad.Proofs.Representable

/-!
# Calculations stay in range

A calculation starts from literals and from numbers given from outside, and applies one
operation after the other. Each operation gives a number that can be represented, or it
overflows, or it is undefined: a quotient by zero, a root of a negative number.
-/
set_option autoImplicit false

namespace Mathpad

namespace Number

/-- The largest decimal has a minus sign put in front of it. -/
def Unary.Oversteps : Unary → Number → Prop
  | .neg, .decimal v _ => v.IsLargest
  | _, _ => False

/-- An operation on one number gives one that can be represented, unless it is undefined or the
change of sign that rounds. -/
theorem Unary.act_representable (op : Unary) {x : Number} (hx : x.Representable)
    (h : ¬op.Oversteps x) :
    Meets (op.act x) Representable fun f => f.IsOverflow ∨ op.Undefined x f := by
  cases op with
  | neg =>
    refine (neg_representable hx ?_).mono (fun _ h => h) fun _ => .inl
    rintro v a rfl
    exact h
  | powInt n => exact (powInt_inRange hx.lowest n).imp fun _ h => h.representable
  | reciprocal => exact (reciprocal_inRange hx.lowest).imp fun _ h => h.representable
  | sqrt => exact (sqrt_inRange hx.lowest).imp fun _ h => h.representable
  | simplify => exact (simplify_representable hx).mono (fun _ h => h) fun _ => .inl
  | denoise => exact denoise_representable hx

/-- The only operation on one number that oversteps gives what cannot be represented. -/
theorem Unary.not_representable {op : Unary} {x : Number} (h : op.Oversteps x) :
    ∃ y, op.act x = .ok y ∧ ¬y.Representable := by
  cases op with
  | neg =>
    cases x with
    | ratio => exact absurd h id
    | decimal v a => exact ⟨_, rfl, Decimal.negate_largest h⟩
  | _ => exact absurd h id

end Number

/-! ## Numbers given from outside -/

/-- A decimal with too many digits: too many are left when its places are cut off, or there are few
enough places and the value is in range, but the digits are not. -/
def Decimal.Overlong (d : Decimal) : Prop :=
  d.exponent < -(maxPlaces : Int) ∧ precision < digitCount d.placed.digits ∨
    -(maxPlaces : Int) ≤ d.exponent ∧ d.exponent < 0 ∧ maxMagnitude < d.digits ∧
      |d.value| < maxMagnitude

/-- The fault of a number that does not fit, also as a literal. -/
def Fault.Overflows (f : Fault) : Prop := f.IsOverflow ∨ f = .upgrade .overflow

/-- A text that is no decimal is not refused for its size. -/
theorem not_overflows_invalidDecimal : ¬Fault.Overflows (.mishap .invalidDecimal) := by
  rintro (h | h) <;> cases h

/-- A decimal that is given as a number can be represented or overflows, unless it has too many
digits. -/
theorem Number.ofDecimal_representable_iff (d : Decimal) (a : Accuracy) :
    Meets (ofDecimal d a) Representable Fault.Overflows ↔ ¬d.Overlong := by
  have hfit : d.fit? = if d.exponent < -(maxPlaces : Int) ∧
      precision < Decimal.digitCount d.placed.digits then .error .tooManyDigits
      else if (Decimal.ofNat maxMagnitude).lt (d.placed.magnitude precision) then .error .tooLarge
      else .ok d.placed := rfl
  unfold ofDecimal Decimal.Overlong
  rw [hfit]
  by_cases hmany : d.exponent < -(maxPlaces : Int) ∧
      precision < Decimal.digitCount d.placed.digits
  · rw [if_pos hmany]
    exact iff_of_false not_overflows_invalidDecimal fun h => h (.inl hmany)
  rw [if_neg hmany]
  by_cases hsize : |d.placed.value| < maxMagnitude
  · rw [(Decimal.magnitude_in_range_iff _).mpr hsize, if_neg Bool.false_ne_true]
    change d.placed.Representable ↔ _
    by_cases hlong : d.exponent < -(maxPlaces : Int)
    -- what is left has the permitted places, and no more digits than the precision
    · have hexp : d.placed.exponent = -(maxPlaces : Int) := by
        rw [Decimal.placed, if_pos hlong, Decimal.atPlaces_exponent]
      have hfew : Decimal.digitCount d.placed.digits ≤ precision :=
        not_lt.mp fun h => hmany ⟨hlong, h⟩
      refine iff_of_true ((Decimal.representable_iff hexp.ge hsize).mpr fun _ =>
        (Decimal.digits_lt_of_few hfew).le) ?_
      rintro (h | ⟨hplaces, -⟩)
      · exact hmany h
      · exact not_lt.mpr hplaces hlong
    · have hplaced : d.placed = d := if_neg hlong
      rw [hplaced] at hsize ⊢
      rw [Decimal.representable_iff (not_lt.mp hlong) hsize]
      constructor
      · rintro h (⟨hlong', -⟩ | ⟨-, hneg, hdigits, -⟩)
        · exact hlong hlong'
        · exact not_lt.mpr (h hneg) hdigits
      · exact fun h hneg => not_lt.mp fun hdigits =>
          h (.inr ⟨not_lt.mp hlong, hneg, hdigits, hsize⟩)
  · have hlarge : (Decimal.ofNat maxMagnitude).lt (d.placed.magnitude precision) = true := by
      rw [← Bool.not_eq_false, Decimal.magnitude_in_range_iff]
      exact hsize
    rw [hlarge, if_pos rfl]
    refine iff_of_true (.inl rfl) ?_
    rintro (h | ⟨hplaces, -, -, h⟩)
    · exact hmany h
    · rw [Decimal.placed, if_neg (not_lt.mpr hplaces)] at hsize
      exact hsize h

/-- The text spells no decimal, or one with too many digits. -/
def Overspelled (s : String) : Prop :=
  Decimal.read? s = none ∨ ∃ d, Decimal.read? s = some (.finite d) ∧ d.Overlong

/-- A number that is read from a text can be represented or overflows, unless the text spells too
many digits or no decimal. -/
theorem Number.ofText_representable_iff (s : String) (a : Accuracy) :
    Meets (ofText s a) Representable Fault.Overflows ↔ ¬Overspelled s := by
  unfold ofText Overspelled
  cases Decimal.read? s with
  | none => exact iff_of_false not_overflows_invalidDecimal fun h => h (.inl rfl)
  | some r =>
    cases r with
    | finite d => simpa using ofDecimal_representable_iff d a
    | infinite => simp [Fault.Overflows, Fault.IsOverflow]
    | notANumber => simp [Fault.Overflows, Fault.IsOverflow]

/-- Where a calculation starts. -/
inductive Start where
  | literal (n : Numeral)
  | int (n : Int)
  | decimal (d : Decimal) (a : Accuracy)
  | text (s : String) (a : Accuracy)

namespace Start

/-- The number that a calculation starts from. -/
def value : Start → Outcome Number
  | literal n => n.literal.number
  | int n => Number.ofInt n
  | decimal d a => Number.ofDecimal d a
  | text s a => Number.ofText s a

/-- A decimal with too many digits, or a text that spells none. -/
def Oversteps : Start → Prop
  | literal _ => False
  | int _ => False
  | decimal d _ => d.Overlong
  | text s _ => Overspelled s

/-- The number of a literal can be represented, or it overflows. -/
theorem literal_representable (n : Numeral) :
    Meets n.literal.number Number.Representable Fault.Overflows := by
  rw [Numeral.literal_number]
  by_cases hrange : n.InRange
  · rw [if_pos hrange]
    change Number.Representable n.number
    unfold Numeral.number
    split
    · next h =>
      refine ⟨?_, rfl, Int.one_pos, Int.gcd_one⟩
      have hnonneg : -maxWord - 1 ≤ (n.mantissa : Int) :=
        le_trans (by decide) (Int.natCast_nonneg _)
      simp [isWord, hnonneg, h.2]
    · refine ⟨by have := hrange.2; dsimp only; omega, ?_⟩
      have hzero : (-(n.places : Int)).toNat = 0 := by omega
      dsimp only
      rw [hzero, pow_zero, mul_one]
      exact hrange.1
  · rw [if_neg hrange]
    exact .inr rfl

/-- A start can be represented or overflows if and only if it does not overstep. -/
theorem value_representable_iff (start : Start) :
    Meets start.value Number.Representable Fault.Overflows ↔ ¬start.Oversteps := by
  cases start with
  | literal n => exact iff_of_true (literal_representable n) id
  | int n =>
    refine iff_of_true ?_ id
    refine (Number.word_meets n).mono (fun _ h => h) (fun _ => .inl) |>.bind ?_
    rintro m ⟨hmn, hn⟩
    rw [← hmn] at hn
    exact Number.representable_ofRat (q := m) ⟨by rwa [Rat.num_intCast], rfl⟩
  | decimal d a => exact Number.ofDecimal_representable_iff d a
  | text s a => exact Number.ofText_representable_iff s a

end Start

/-! ## Calculations -/

/-- Numbers to start from, and operations applied to what came before. -/
inductive Calculation where
  | start (s : Start)
  | unary (op : Number.Unary) (x : Calculation)
  | binary (op : Number.Binary) (x y : Calculation)

namespace Calculation

/-- The result of a calculation. -/
def value : Calculation → Outcome Number
  | start s => s.value
  | unary op x => do op.act (← x.value)
  | binary op x y => do
    let v ← x.value
    op.act v (← y.value)

/-- The calculation and all those that its results come from. -/
def parts : Calculation → List Calculation
  | start s => [start s]
  | unary op x => unary op x :: x.parts
  | binary op x y => binary op x y :: (x.parts ++ y.parts)

/-- The last operation has no result, however large numbers may be. -/
inductive Undefined : Calculation → Fault → Prop
  | unary {op : Number.Unary} {x : Calculation} {v : Number} {f : Fault} (hx : x.value = .ok v)
      (h : op.Undefined v f) : Undefined (unary op x) f
  | binary {op : Number.Binary} {x y : Calculation} {v w : Number} {f : Fault}
      (hx : x.value = .ok v) (hy : y.value = .ok w) (h : op.Undefined v w f) :
      Undefined (binary op x y) f

/-- The calculation gives a number that can be represented, or it overflows, or one of the
operations on the way is undefined. -/
def Contained (c : Calculation) : Prop :=
  Meets c.value Number.Representable fun f => f.Overflows ∨ ∃ p ∈ c.parts, p.Undefined f

/-- The last step starts from a decimal with too many digits, or puts a minus sign in front of the
largest decimal. -/
def Oversteps : Calculation → Prop
  | start s => s.Oversteps
  | unary op x => ∃ v, x.value = .ok v ∧ op.Oversteps v
  | binary .. => False

theorem mem_parts_self (c : Calculation) : c ∈ c.parts := by
  cases c <;> simp [parts]

/-- What a part comes from is part of the whole. -/
theorem parts_subset {c p : Calculation} (h : p ∈ c.parts) : p.parts ⊆ c.parts := by
  induction c with
  | start s =>
    obtain rfl := List.mem_singleton.mp h
    exact List.Subset.refl _
  | unary op x ih =>
    rcases List.mem_cons.mp h with rfl | h
    · exact List.Subset.refl _
    · exact List.subset_cons_of_subset _ (ih h)
  | binary op x y ihx ihy =>
    rcases List.mem_cons.mp h with rfl | h
    · exact List.Subset.refl _
    rcases List.mem_append.mp h with h | h
    · exact List.subset_cons_of_subset _ (List.subset_append_of_subset_left _ (ihx h))
    · exact List.subset_cons_of_subset _ (List.subset_append_of_subset_right _ (ihy h))

/-- A fault of a part is accounted for in the whole. -/
theorem Contained.within {c p : Calculation} (hp : p.Contained) (hsub : p.parts ⊆ c.parts) :
    Meets p.value Number.Representable
      fun f => f.Overflows ∨ ∃ q ∈ c.parts, q.Undefined f :=
  hp.mono (fun _ h => h) fun f hf => by
    rcases hf with hf | ⟨q, hq, hundefined⟩
    · exact .inl hf
    · exact .inr ⟨q, hsub hq, hundefined⟩

/-- Without a step too far a calculation stays among the numbers that can be represented. -/
theorem contained_of_parts {c : Calculation} (h : ∀ p ∈ c.parts, ¬p.Oversteps) : c.Contained := by
  induction c with
  | start s =>
    refine ((s.value_representable_iff).mpr (h _ (mem_parts_self _))).mono (fun _ hv => hv) ?_
    exact fun _ => .inl
  | unary op x ih =>
    have hx : x.Contained := ih fun p hp => h p (List.mem_cons_of_mem _ hp)
    refine (hx.within (List.subset_cons_self _ _)).eq_and.bind fun v hv => ?_
    have hop : ¬op.Oversteps v := fun hover => h _ (mem_parts_self _) ⟨v, hv.1, hover⟩
    refine (op.act_representable hv.2 hop).mono (fun _ hw => hw) fun f hf => ?_
    rcases hf with hf | hf
    · exact .inl (.inl hf)
    · exact .inr ⟨_, mem_parts_self _, .unary hv.1 hf⟩
  | binary op x y ihx ihy =>
    have hx : x.Contained := ihx fun p hp => h p (by simp [parts, hp])
    have hy : y.Contained := ihy fun p hp => h p (by simp [parts, hp])
    refine (hx.within fun p hp => by simp [parts, hp]).eq_and.bind fun v hv => ?_
    refine (hy.within fun p hp => by simp [parts, hp]).eq_and.bind fun w hw => ?_
    refine (op.act_inRange hv.2.lowest hw.2.lowest).mono (fun _ hu => hu.representable) fun f hf => ?_
    rcases hf with hf | hf
    · exact .inl (.inl hf)
    · exact .inr ⟨_, mem_parts_self _, .binary hv.1 hw.1 hf⟩

/-- A step too far gives a number that cannot be represented, or fails in a way of its own. -/
theorem not_contained {c : Calculation} (h : c.Oversteps) : ¬c.Contained := by
  intro hc
  cases c with
  | start s =>
    refine (s.value_representable_iff).mp (hc.mono (fun _ hv => hv) fun f hf => ?_) h
    rcases hf with hf | ⟨p, hp, hundefined⟩
    · exact hf
    · obtain rfl := List.mem_singleton.mp hp
      cases hundefined
  | unary op x =>
    obtain ⟨v, hv, hover⟩ := h
    obtain ⟨w, hw, hrep⟩ := Number.Unary.not_representable hover
    refine hrep (Meets.of_ok hc ?_)
    rw [value, hv, ok_bind, hw]
  | binary op x y => exact h

/-- Every number that comes up in a calculation can be represented, and what has no place overflows
unless it is undefined, exactly when no step starts from a decimal with too many digits and none
puts a minus sign in front of the largest decimal. -/
theorem contained_iff (c : Calculation) :
    (∀ p ∈ c.parts, p.Contained) ↔ ∀ p ∈ c.parts, ¬p.Oversteps := by
  constructor
  · exact fun h p hp hover => not_contained hover (h p hp)
  · exact fun h p hp => contained_of_parts fun q hq => h q (parts_subset hp hq)

/-- A decimal of twenty-nine nines is taken as a number, and the largest literal gets a minus sign. -/
theorem beyond_range :
    (∃ v, (start (.text "9.9999999999999999999999999999" .exact)).value = .ok v ∧
      ¬v.Representable) ∧
    ∃ v, (unary .neg (start (.literal ⟨[7, 9, 2, 2, 8, 1, 6, 2, 5, 1, 4, 2, 6, 4, 3, 3, 7, 5, 9, 3,
      5, 4, 3, 9, 5, 0, 3, 3, 5], none, by simp⟩))).value = .ok v ∧ ¬v.Representable := by
  refine ⟨⟨.decimal ⟨false, 99999999999999999999999999999, -28⟩ .exact, by decide +kernel, ?_⟩,
    ⟨.decimal ⟨true, 7922816251426433759354395034, 1⟩ .exact, by decide +kernel, ?_⟩⟩
  · exact fun h => absurd h.size (by decide)
  · exact fun h => absurd h.size (by decide)

end Calculation
end Mathpad
