import Mathpad.Proofs.PlainNotation

/-!
# Plain notation is read as the value it was written for

The plain notation of a decimal consists of a sign, digits, and perhaps a point with more digits. None of
these characters is a blank or part of a name, so that the text is read as it stands
(`Decimal.read?_of_marks`), and the digits say the value (`Decimal.unsigned?_digits`). What is read has no
more places than the decimal and the same leading digit, so it is not too large or too small to be read.

So the text and the value determine each other (`Decimal.plain_faithful`).
-/
set_option autoImplicit false

namespace Mathpad.Decimal

-- What is said of each character in a list is decided along the list, not over all characters.
attribute [local instance (high)] List.decidableBAll

variable {v w : Decimal} {cs whole kept : List Char}

/-! ## Characters -/

/-- The characters that plain notation is written with. -/
def marks : List Char := ['-', '.', '0', '1', '2', '3', '4', '5', '6', '7', '8', '9']

/-- Reading takes the characters as they are. -/
theorem settled_of_mem_marks : ∀ c ∈ marks, Text.isBlank c = false ∧ c ≠ '_' ∧
    Text.asciiDigit c = c ∧ c.toLower = c := by
  decide +kernel

/-- Digits are characters of plain notation. -/
theorem mem_marks_of_isDigit {c : Char} (h : c.isDigit = true) : c ∈ marks := by
  obtain ⟨hlow, hhigh⟩ := Text.toNat_of_isDigit h
  have hchar : c = Char.ofNat c.toNat := (Char.ofNat_toNat c).symm
  generalize c.toNat = n at hlow hhigh hchar
  subst hchar
  interval_cases n <;> decide

/-! ## Texts of these characters -/

/-- There are no blanks to trim in plain notation. -/
theorem trimBlanks_of_marks (h : ∀ c ∈ cs, c ∈ marks) : Text.trimBlanks cs = cs := by
  by_cases hne : cs = []
  · rw [hne]
    rfl
  refine Reader.trimBlanks_eq_self hne (fun c hc => ?_) fun c hc => ?_
  · exact (settled_of_mem_marks c (h c (List.mem_of_mem_head? hc))).1
  · exact (settled_of_mem_marks c (h c (List.mem_of_mem_getLast? hc))).1

/-- What stands behind the sign stands in the text. -/
theorem mem_takeSign {c : Char} (h : c ∈ (takeSign cs).2) : c ∈ cs := by
  unfold takeSign at h
  split at h
  · exact List.mem_cons_of_mem _ h
  · exact List.mem_cons_of_mem _ h
  · exact h

/-- A text of these characters is no name, and only what follows the sign has to be looked at. -/
theorem read?_of_marks (h : ∀ c ∈ cs, c ∈ marks) : read? (String.ofList cs) =
    match unsigned? (takeSign cs).2 with
    | some d => if d.isReadable then some (.finite { d with negative := (takeSign cs).1 }) else none
    | none => none := by
  have hsame : ∀ {f : Char → Char} {ds : List Char}, (∀ c ∈ ds, f c = c) → ds.map f = ds :=
    fun hf => (List.map_congr_left hf).trans (List.map_id' _)
  have hfilter : cs.filter (fun c => decide (c ≠ '_')) = cs :=
    List.filter_eq_self.mpr fun c hc => decide_eq_true (settled_of_mem_marks c (h c hc)).2.1
  have hmap : cs.map Text.asciiDigit = cs := hsame fun c hc =>
    (settled_of_mem_marks c (h c hc)).2.2.1
  have hbody : ∀ c ∈ (takeSign cs).2, c ∈ marks := fun c hc => h c (mem_takeSign hc)
  have hname : (takeSign cs).2.map Char.toLower = (takeSign cs).2 := hsame fun c hc =>
    (settled_of_mem_marks c (hbody c hc)).2.2.2
  -- every name has an n in it
  have hn : 'n' ∉ (takeSign cs).2 := fun hn => absurd (hbody _ hn) (by decide)
  have hnot : ∀ name : String, 'n' ∈ name.toList → (takeSign cs).2 ≠ name.toList :=
    fun name hname heq => hn (heq ▸ hname)
  have hprefix : ∀ name : String, 'n' ∈ name.toList →
      name.toList.isPrefixOf (takeSign cs).2 ≠ true :=
    fun name hname hpre => hn ((List.isPrefixOf_iff_prefix.mp hpre).subset hname)
  unfold read?
  dsimp only
  rw [String.toList_ofList, trimBlanks_of_marks h, hfilter, hmap, hname,
    if_neg (not_or.mpr ⟨hnot "inf" (by decide), hnot "infinity" (by decide)⟩),
    if_neg fun hnan => hprefix "nan" (by decide) hnan.1]
  exact if_neg fun hnan => hprefix "snan" (by decide) hnan.1

/-! ## Digits -/

/-- What stands behind the whole part: nothing, or a point and the places. -/
def behindPoint (kept : List Char) : List Char := if kept.isEmpty then [] else '.' :: kept

/-- A digit is no sign. -/
theorem takeSign_of_isDigit {c : Char} (h : c.isDigit = true) : takeSign (c :: cs) = (false, c :: cs) := by
  unfold takeSign
  split
  · next heq =>
    cases heq
    exact absurd h (by decide)
  · next heq =>
    cases heq
    exact absurd h (by decide)
  · rfl

/-- The sign in front of digits is split off. -/
theorem takeSign_signed (negative : Bool) (hdigits : ∀ c ∈ whole, c.isDigit = true) (hne : whole ≠ []) :
    takeSign ((if negative then ['-'] else []) ++ (whole ++ cs)) = (negative, whole ++ cs) := by
  cases negative with
  | true => rfl
  | false =>
    obtain ⟨c, more, rfl⟩ := List.exists_cons_of_ne_nil hne
    exact takeSign_of_isDigit (hdigits c List.mem_cons_self)

/-- Digits with at most one point say the number that is written with all of them, in units of the last
place. -/
theorem unsigned?_digits (hwhole : ∀ c ∈ whole, c.isDigit = true) (hkept : ∀ c ∈ kept, c.isDigit = true)
    (hne : whole ≠ []) : unsigned? (whole ++ behindPoint kept) =
      some ⟨false, digitsValue (whole ++ kept), -(kept.length : Int)⟩ := by
  -- the whole part ends where the point is, or with the text
  have hstop : ∀ c ∈ (behindPoint kept).head?, c.isDigit = false := by
    intro c hc
    cases kept with
    | nil => cases hc
    | cons d ds =>
      cases hc
      rfl
  have htake : (whole ++ behindPoint kept).takeWhile Char.isDigit = whole := by
    rw [Reader.takeWhile_append_of_stop hstop, List.takeWhile_eq_self_iff.mpr hwhole]
  have hdrop : (whole ++ behindPoint kept).dropWhile Char.isDigit = behindPoint kept := by
    rw [Reader.dropWhile_append_of_stop hstop, List.dropWhile_eq_nil_iff.mpr hwhole, List.nil_append]
  have hsome : whole.isEmpty = false := List.isEmpty_eq_false_iff.mpr hne
  unfold unsigned?
  dsimp only
  rw [htake, hdrop]
  cases kept with
  | nil => simp [behindPoint, hsome, exponent?]
  | cons d ds =>
    have htake' : (d :: ds).takeWhile Char.isDigit = d :: ds := List.takeWhile_eq_self_iff.mpr hkept
    have hdrop' : (d :: ds).dropWhile Char.isDigit = [] := List.dropWhile_eq_nil_iff.mpr hkept
    simp only [behindPoint, List.isEmpty_cons, Bool.false_eq_true, if_false, htake', hdrop', hsome,
      Bool.and_false, exponent?]
    simp

/-! ## What is read -/

theorem PlainParts.plain_eq (h : v.PlainParts whole kept) :
    v.plain = (if v.isBelowZero then ['-'] else []) ++ (whole ++ behindPoint kept) := by
  rw [h.plain, behindPoint]
  cases kept <;> simp

/-- Plain notation is written with its characters only. -/
theorem PlainParts.mem_marks (h : v.PlainParts whole kept) : ∀ c ∈ v.plain, c ∈ marks := by
  have hdigit : ∀ c ∈ whole ++ kept, c ∈ marks := fun c hc => mem_marks_of_isDigit (h.digits c hc)
  have hpoint : ∀ c ∈ behindPoint kept, c = '.' ∨ c ∈ kept := by
    intro c hc
    unfold behindPoint at hc
    split at hc
    · cases hc
    · exact List.mem_cons.mp hc
  intro c hc
  rw [h.plain_eq] at hc
  rcases List.mem_append.mp hc with hsign | hc
  · split at hsign
    · obtain rfl := List.mem_singleton.mp hsign
      decide
    · cases hsign
  rcases List.mem_append.mp hc with hwhole | hc
  · exact hdigit c (List.mem_append_left kept hwhole)
  · rcases hpoint c hc with rfl | hkept
    · decide
    · exact hdigit c (List.mem_append_right whole hkept)

/-- The decimal that the plain notation of another one is read as. -/
def reread (v : Decimal) (whole kept : List Char) : Decimal :=
  ⟨v.isBelowZero, digitsValue (whole ++ kept), -(kept.length : Int)⟩

/-- The decimal that is read has the value of the one that was written. -/
theorem PlainParts.value_reread (h : v.PlainParts whole kept) :
    (v.reread whole kept).value = v.value := by
  have hpow : (10 : ℚ) ^ kept.length ≠ 0 := by positivity
  rw [reread, value_eq, h.value, mul_assoc, mul_assoc, zpow_neg, zpow_natCast, mul_inv_cancel₀ hpow,
    mul_one]
  exact (value_eq_sign_mul_abs v).symm

/-- What the sign and the digits of the text say. -/
theorem PlainParts.spells (h : v.PlainParts whole kept) :
    (takeSign v.plain).1 = v.isBelowZero ∧
      unsigned? (takeSign v.plain).2 = some { v.reread whole kept with negative := false } := by
  have hdigits : ∀ c ∈ whole, c.isDigit = true := fun c hc => h.digits c (List.mem_append_left _ hc)
  have hkept : ∀ c ∈ kept, c.isDigit = true := fun c hc => h.digits c (List.mem_append_right _ hc)
  rw [h.plain_eq, takeSign_signed _ hdigits h.whole_ne_nil]
  exact ⟨rfl, unsigned?_digits hdigits hkept h.whole_ne_nil⟩

/-- Plain notation is read as the decimal that its parts say, if that is within the limits. -/
theorem PlainParts.read?_eq (h : v.PlainParts whole kept) : read? (String.ofList v.plain) =
    if (v.reread whole kept).isReadable then some (.finite (v.reread whole kept)) else none := by
  obtain ⟨hsign, hdigits⟩ := h.spells
  rw [read?_of_marks h.mem_marks, hdigits, hsign]
  rfl

/-- Two decimals that are written alike have one value, as what is written is read as one decimal.
-/
theorem PlainParts.value_eq_of_plain_eq {whole' kept' : List Char} (h : v.PlainParts whole kept)
    (h' : w.PlainParts whole' kept') (htext : v.plain = w.plain) : v.value = w.value := by
  obtain ⟨hsign, hdigits⟩ := h.spells
  obtain ⟨hsign', hdigits'⟩ := h'.spells
  rw [htext] at hsign hdigits
  have hunsigned := Option.some.inj (hdigits.symm.trans hdigits')
  have hsame : v.reread whole kept = w.reread whole' kept' := by
    simp only [reread, Decimal.mk.injEq, true_and] at hunsigned ⊢
    exact ⟨hsign.symm.trans hsign', hunsigned⟩
  rw [← h.value_reread, hsame, h'.value_reread]

/-! ## What can be read -/

/-- The digits are those of the decimal, but for zeros at the end of the places or behind the number. -/
theorem PlainParts.digits_eq (h : v.PlainParts whole kept) :
    (digitsValue (whole ++ kept) : ℚ) = v.digits * 10 ^ (v.exponent + kept.length) := by
  rw [h.value, abs_value, mul_assoc, zpow_add₀ (by norm_num), zpow_natCast]

/-- No places are added. -/
theorem PlainParts.length_kept_le (h : v.PlainParts whole kept) :
    kept.length ≤ (-v.exponent).toNat := by
  by_contra hmore
  obtain ⟨n, hn⟩ : ∃ n : Nat, v.exponent + kept.length = (n + 1 : Nat) :=
    ⟨(v.exponent + kept.length).toNat - 1, by omega⟩
  have hne : kept ≠ [] := by
    rintro rfl
    simp at hmore
  -- the last digit would be a zero
  have hvalue : digitsValue (whole ++ kept) = v.digits * 10 ^ (n + 1) := by
    have hcast := h.digits_eq
    rw [hn, zpow_natCast] at hcast
    exact_mod_cast hcast
  refine digitsValue_mod_ten whole (fun c hc => h.digits c (by simp [hc])) h.last hne ?_
  rw [hvalue, pow_succ, ← mul_assoc, Nat.mul_mod_left]

/-- The first digit stands for as much as that of the decimal. -/
theorem PlainParts.leadingExponent_le (h : v.PlainParts whole kept)
    (hne : digitsValue (whole ++ kept) ≠ 0) :
    (v.reread whole kept).leadingExponent ≤ v.leadingExponent := by
  obtain ⟨m, hm⟩ : ∃ m, m = digitsValue (whole ++ kept) := ⟨_, rfl⟩
  have hdigits := h.digits_eq
  rw [← hm] at hdigits hne
  have hlt : (m : ℚ) < 10 ^ (digitCount v.digits + (v.exponent + kept.length)) := by
    have hcount : (v.digits : ℚ) < 10 ^ (digitCount v.digits : ℤ) := by
      rw [zpow_natCast]
      exact_mod_cast lt_pow_digitCount v.digits
    rw [hdigits, zpow_add₀ (by norm_num) (digitCount v.digits : ℤ)]
    exact mul_lt_mul_of_pos_right hcount (by positivity)
  -- since there is a digit, there is room for one
  have hone : (1 : ℚ) ≤ m := by exact_mod_cast Nat.pos_of_ne_zero hne
  obtain ⟨p, hp⟩ : ∃ p : Nat, digitCount v.digits + (v.exponent + kept.length) = (p : ℤ) := by
    refine ⟨_, (Int.toNat_of_nonneg ?_).symm⟩
    by_contra hneg
    have hsmall : (10 : ℚ) ^ (digitCount v.digits + (v.exponent + kept.length)) ≤ 1 :=
      zpow_le_one_of_nonpos₀ (by norm_num) (by omega)
    linarith
  rw [hp, zpow_natCast] at hlt
  have hlt : m < 10 ^ p := by exact_mod_cast hlt
  have hpos : 1 ≤ p := by
    by_contra hzero
    rw [Nat.lt_one_iff.mp (Nat.lt_of_not_le hzero), pow_zero] at hlt
    omega
  have hcount := digitCount_le hpos hlt
  unfold leadingExponent reread
  rw [← hm]
  dsimp only
  omega

/-- A decimal is taken for a number if both limits on its exponents are kept. -/
theorem isReadable_iff (d : Decimal) : d.isReadable = true ↔ -2 * readableExponent < d.exponent ∧
    if d.digits = 0 then d.exponent ≤ readableExponent
    else d.leadingExponent ≤ readableExponent := by
  unfold isReadable
  split <;> simp

/-- The plain notation of what is taken for a number is taken for one, as it has no more places and
no higher leading digit. -/
theorem PlainParts.isReadable (h : v.PlainParts whole kept) (hv : v.isReadable = true) :
    (v.reread whole kept).isReadable = true := by
  obtain ⟨hlow, hhigh⟩ := (isReadable_iff v).mp hv
  have hplaces := h.length_kept_le
  have hlimit : 0 < readableExponent := by decide
  have hexponent : (v.reread whole kept).exponent = -(kept.length : Int) := rfl
  have hread : (v.reread whole kept).digits = digitsValue (whole ++ kept) := rfl
  rw [isReadable_iff, hexponent, hread]
  refine ⟨by omega, ?_⟩
  by_cases hzero : digitsValue (whole ++ kept) = 0
  · rw [if_pos hzero]
    omega
  · have hdigits : v.digits ≠ 0 := by
      intro hnone
      have hcast := h.digits_eq
      rw [hnone, Nat.cast_zero, zero_mul] at hcast
      exact hzero (by exact_mod_cast hcast)
    rw [if_neg hdigits] at hhigh
    rw [if_neg hzero]
    exact (h.leadingExponent_le hzero).trans hhigh

/-! ## Plain notation and the value -/

/-- A text in plain notation: perhaps a minus sign, digits, and perhaps a point with more digits that do not
end in a zero. -/
def IsPlainText (cs : List Char) : Prop :=
  ∃ sign whole kept, cs = sign ++ (whole ++ behindPoint kept) ∧ (sign = [] ∨ sign = ['-']) ∧
    whole ≠ [] ∧ (∀ c ∈ whole ++ kept, c.isDigit = true) ∧ kept.getLast? ≠ some '0'

/-- Plain notation is read as a decimal of the same value, and within the limits if the decimal is: so
decimals have one plain notation if and only if they have one value. -/
theorem plain_faithful (v w : Decimal) :
    IsPlainText v.plain ∧
      (∃ d : Decimal, d.value = v.value ∧ (v.isReadable = true → d.isReadable = true) ∧
        read? (String.ofList v.plain) = if d.isReadable then some (.finite d) else none) ∧
      (v.plain = w.plain ↔ v.value = w.value) := by
  obtain ⟨whole, kept, hv⟩ := v.exists_plainParts
  obtain ⟨whole', kept', hw⟩ := w.exists_plainParts
  refine ⟨⟨_, whole, kept, hv.plain_eq, ?_, hv.whole_ne_nil, hv.digits, hv.last⟩,
    ⟨v.reread whole kept, hv.value_reread, hv.isReadable, hv.read?_eq⟩,
    hv.value_eq_of_plain_eq hw, plain_eq_of_value_eq⟩
  split
  · exact .inr rfl
  · exact .inl rfl

end Mathpad.Decimal
