import Mathpad.Proofs.LiteralDrawing

/-!
# Plain notation says the value and nothing else

A decimal in plain notation has no zeros in front but the one that has to stand before the point, and
none at the end of its places. With both excluded, digits and places are determined by the magnitude
(`Decimal.PlainParts.unique`). So decimals of one value have one plain notation, whatever their
exponents are (`Decimal.plain_eq_of_value_eq`).
-/
set_option autoImplicit false

namespace Mathpad.Decimal

variable {v w : Decimal} {whole kept whole' kept' : List Char}

/-! ## Digits in front -/

/-- A number other than zero is written without a zero in front. -/
theorem head_digitsOf {n : Nat} (hn : n ≠ 0) : (digitsOf n).head? ≠ some '0' := by
  intro hhead
  obtain ⟨more, hmore⟩ := List.head?_eq_some_iff.mp hhead
  -- without the zero there would be fewer digits for the same number
  have hvalue := digitsValue_digitsOf n
  have hdigits : ∀ c ∈ more, c.isDigit = true := fun c hc =>
    isDigit_of_mem_digitsOf (n := n) (hmore ▸ List.mem_cons_of_mem _ hc)
  rw [hmore, digitsValue_cons, show '0'.toNat - 48 = 0 from rfl, Nat.zero_mul, Nat.zero_add] at hvalue
  have hlt := digitsValue_lt hdigits
  rw [hvalue] at hlt
  have hpos : 0 < more.length := by
    by_contra hnil
    rw [Nat.eq_zero_of_not_pos hnil, pow_zero] at hlt
    omega
  have hlength := length_digitsOf_le hpos hlt
  rw [hmore, List.length_cons] at hlength
  omega

/-- A whole part that begins with a zero is that zero. -/
theorem SplitsAt.head (h : v.SplitsAt whole kept) (hhead : whole.head? = some '0') :
    whole = ['0'] := by
  have hsplit := h.split
  unfold splitAtPoint at hsplit
  by_cases hexp : 0 ≤ v.exponent
  · rw [if_pos hexp] at hsplit
    obtain ⟨hwhole, -⟩ := Prod.mk.inj hsplit
    by_cases hzero : v.digits = 0
    · rw [← hwhole, if_pos hzero]
    · rw [← hwhole, if_neg hzero, List.head?_append_of_ne_nil _ (digitsOf_ne_nil _)] at hhead
      exact absurd hhead (head_digitsOf hzero)
  · rw [if_neg hexp] at hsplit
    dsimp only at hsplit
    rw [List.splitAt_eq] at hsplit
    obtain ⟨hwhole, -⟩ := Prod.mk.inj hsplit
    obtain ⟨places, hplaces⟩ : ∃ k, k = (-v.exponent).toNat := ⟨_, rfl⟩
    rw [← hplaces, List.length_append, List.length_replicate] at hwhole
    by_cases hshort : (digitsOf v.digits).length ≤ places
    · -- zeros are put in front until there is one before the point
      have hcount : places + 1 - (digitsOf v.digits).length + (digitsOf v.digits).length - places = 1 := by
        omega
      rw [hcount] at hwhole
      obtain ⟨zeros, hzeros⟩ : ∃ k, places + 1 - (digitsOf v.digits).length = k + 1 :=
        ⟨places - (digitsOf v.digits).length, by omega⟩
      rw [hzeros, List.replicate_succ, List.cons_append, List.take_succ_cons, List.take_zero] at hwhole
      exact hwhole.symm
    · have hnone : places + 1 - (digitsOf v.digits).length = 0 := by omega
      have hsome : (digitsOf v.digits).length - places ≠ 0 := by omega
      rw [hnone, List.replicate_zero, List.nil_append, Nat.zero_add] at hwhole
      rw [← hwhole, List.head?_take, if_neg hsome] at hhead
      have hpositive : v.digits ≠ 0 := by
        intro hzero
        rw [hzero] at hshort
        exact hshort (show 1 ≤ places by omega)
      exact absurd hhead (head_digitsOf hpositive)

/-! ## Digits at the end -/

/-- Nothing is left at the end of what is dropped there. -/
theorem getLast?_dropTrailing (c : Char) (cs : List Char) :
    (dropTrailing c cs).getLast? ≠ some c := by
  rw [dropTrailing, List.getLast?_reverse]
  intro hhead
  have hnot := List.head?_dropWhile_not (· == c) cs.reverse
  rw [hhead] at hnot
  simp at hnot

/-- The last digit of a value is that of its text. -/
theorem digitsValue_mod_ten (whole : List Char) (hkept : ∀ c ∈ kept, c.isDigit = true)
    (hlast : kept.getLast? ≠ some '0') (hne : kept ≠ []) :
    digitsValue (whole ++ kept) % 10 ≠ 0 := by
  obtain ⟨front, c, rfl⟩ := List.eq_nil_or_concat' kept |>.resolve_left hne
  have hcode := Text.toNat_of_isDigit (hkept c (by simp))
  have hzero : c ≠ '0' := by
    rintro rfl
    exact hlast (by simp)
  have hchar : c.toNat ≠ 48 := fun hc => hzero (Char.toNat_inj.mp hc)
  have hsingle : digitsValue [c] = c.toNat - 48 := Nat.zero_add _
  rw [← List.append_assoc, digitsValue_append, hsingle, List.length_singleton, pow_one]
  omega

/-! ## Parts -/

/-- The digits of the plain notation before and behind the point. -/
structure PlainParts (v : Decimal) (whole kept : List Char) : Prop where
  digits : ∀ c ∈ whole ++ kept, c.isDigit = true
  whole_ne_nil : whole ≠ []
  head : whole.head? = some '0' → whole = ['0']
  last : kept.getLast? ≠ some '0'
  value : (digitsValue (whole ++ kept) : ℚ) = |v.value| * 10 ^ kept.length
  plain : v.plain = (if v.isBelowZero then ['-'] else []) ++
    if kept.isEmpty then whole else whole ++ '.' :: kept

/-- The plain notation of every decimal has its two parts. -/
theorem exists_plainParts (v : Decimal) : ∃ whole kept, v.PlainParts whole kept := by
  obtain ⟨whole, places, hsplit⟩ := v.exists_splitsAt
  obtain ⟨k, hk⟩ := exists_dropTrailing places
  have hlast := getLast?_dropTrailing '0' places
  generalize hkept : dropTrailing '0' places = kept at hk hlast
  have hvalue : digitsValue (whole ++ kept) * 10 ^ k = v.digits * 10 ^ v.exponent.toNat := by
    rw [← hsplit.value, hk, ← List.append_assoc, digitsValue_append (whole ++ kept),
      digitsValue_zeros, List.length_replicate, Nat.add_zero]
  have hlength : kept.length + k = (-v.exponent).toNat := by
    rw [← hsplit.length_places, hk, List.length_append, List.length_replicate]
  refine ⟨whole, kept, fun c hc => hsplit.digits c ?_, hsplit.whole_ne_nil, hsplit.head, hlast, ?_, ?_⟩
  · rw [hk]
    rcases List.mem_append.mp hc with hc | hc <;> simp [hc]
  · have hcast : (digitsValue (whole ++ kept) : ℚ) * 10 ^ k = v.digits * 10 ^ v.exponent.toNat := by
      exact_mod_cast hvalue
    have hexp : v.exponent = (v.exponent.toNat : Int) - ((kept.length + k : Nat) : Int) := by omega
    rw [abs_value, hexp, zpow_sub₀ (by norm_num), zpow_natCast, zpow_natCast, ← mul_div_assoc,
      ← hcast, pow_add]
    field_simp
  · rw [Decimal.plain, hsplit.split]
    simp only [hkept, isBelowZero]
    by_cases hbelow : (v.negative && v.digits != 0) = true <;> simp [hbelow]

/-- Texts for one magnitude do not differ in their places. -/
theorem PlainParts.length_le (h : v.PlainParts whole kept) (h' : w.PlainParts whole' kept')
    (hvalue : |v.value| = |w.value|) : kept.length ≤ kept'.length := by
  by_contra hlt
  obtain ⟨k, hk⟩ : ∃ k, kept.length = kept'.length + (k + 1) :=
    ⟨kept.length - kept'.length - 1, by omega⟩
  -- the longer text would end with a zero
  have hscaled : digitsValue (whole ++ kept) = digitsValue (whole' ++ kept') * 10 ^ (k + 1) := by
    have hcast : (digitsValue (whole ++ kept) : ℚ) =
        digitsValue (whole' ++ kept') * 10 ^ (k + 1) := by
      rw [h.value, h'.value, hvalue, hk, pow_add, mul_assoc]
    exact_mod_cast hcast
  have hne : kept ≠ [] := by
    rintro rfl
    simp at hk
  refine digitsValue_mod_ten whole (fun c hc => h.digits c (by simp [hc])) h.last hne ?_
  rw [hscaled, pow_succ, ← mul_assoc, Nat.mul_mod_left]

/-- Decimals of one magnitude have the same two parts: neither has more zeros at the end, nor in
front. -/
theorem PlainParts.unique (h : v.PlainParts whole kept) (h' : w.PlainParts whole' kept')
    (hvalue : |v.value| = |w.value|) : whole = whole' ∧ kept = kept' := by
  have hlength := le_antisymm (h.length_le h' hvalue) (h'.length_le h hvalue.symm)
  have hdigits : digitsValue (whole ++ kept) = digitsValue (whole' ++ kept') := by
    have hcast : (digitsValue (whole ++ kept) : ℚ) = digitsValue (whole' ++ kept') := by
      rw [h.value, h'.value, hvalue, hlength]
    exact_mod_cast hcast
  have hsplit := splitAtPoint_digitsValue false h.digits h.whole_ne_nil h.head
  have hsplit' := splitAtPoint_digitsValue false h'.digits h'.whole_ne_nil h'.head
  rw [← hdigits, ← hlength, hsplit] at hsplit'
  exact Prod.mk.inj hsplit'

/-- Whether a decimal lies below zero is a question about its value. -/
theorem isBelowZero_iff (v : Decimal) : v.isBelowZero = true ↔ v.value < 0 := by
  obtain ⟨negative, digits, exponent⟩ := v
  have hpow : (0 : ℚ) < 10 ^ exponent := by positivity
  have hdigits : (0 : ℚ) ≤ digits * 10 ^ exponent := by positivity
  rw [isBelowZero, value_eq]
  cases negative with
  | false => simpa using hdigits
  | true => simp [hpow, Nat.pos_iff_ne_zero]

/-- The value of a decimal is its magnitude with the sign of what is below zero. -/
theorem value_eq_sign_mul_abs (v : Decimal) :
    v.value = (if v.isBelowZero then -1 else 1) * |v.value| := by
  by_cases hneg : v.value < 0
  · rw [if_pos ((isBelowZero_iff v).mpr hneg), abs_of_neg hneg, neg_one_mul, neg_neg]
  · rw [if_neg (mt (isBelowZero_iff v).mp hneg), abs_of_nonneg (not_lt.mp hneg), one_mul]

/-- The plain notation depends on the value alone. -/
theorem plain_eq_of_value_eq (h : v.value = w.value) : v.plain = w.plain := by
  obtain ⟨whole, kept, hv⟩ := v.exists_plainParts
  obtain ⟨whole', kept', hw⟩ := w.exists_plainParts
  obtain ⟨rfl, rfl⟩ := hv.unique hw (congrArg abs h)
  have hsign : v.isBelowZero = w.isBelowZero := by
    rw [Bool.eq_iff_iff, isBelowZero_iff, isBelowZero_iff, h]
  rw [hv.plain, hw.plain, hsign]

end Mathpad.Decimal
