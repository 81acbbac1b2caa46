import Mathlib.Data.List.DropRight
import Mathpad.Proofs.NodeValues
import Mathpad.Proofs.Spelling
import Mathpad.Proofs.StoredNumbers

/-!
# Numbers as text

A number is written as a literal, or as two literals with a stroke between them, and perhaps
with a minus sign in front. Reading such a text gives back a fraction as it is, and a decimal
without the zeros at the end of its places.
-/
set_option autoImplicit false

namespace Mathpad

/-! ## Digits -/

namespace Decimal

/-- The value of some digits in front of others is shifted by those. -/
theorem digitsValue_append (cs ds : List Char) :
    digitsValue (cs ++ ds) = digitsValue cs * 10 ^ ds.length + digitsValue ds := by
  have hfold : ∀ start : Nat, ds.foldl (fun n c => n * 10 + (c.toNat - 48)) start =
      start * 10 ^ ds.length + digitsValue ds := by
    induction ds with
    | nil => intro start; simp [digitsValue]
    | cons d ds ih =>
      intro start
      have hd : digitsValue (d :: ds) = (d.toNat - 48) * 10 ^ ds.length + digitsValue ds := by
        rw [digitsValue, List.foldl_cons, ih, Nat.zero_mul, Nat.zero_add]
      rw [List.foldl_cons, ih, hd, List.length_cons]
      ring
  rw [digitsValue, List.foldl_append, hfold]
  rfl

@[simp] theorem digitsValue_zeros (k : Nat) : digitsValue (List.replicate k '0') = 0 := by
  induction k with
  | zero => rfl
  | succ k ih =>
    have hzero : digitsValue ['0'] = 0 := rfl
    rw [List.replicate_succ, ← List.singleton_append, digitsValue_append, ih, hzero, Nat.zero_mul]

@[simp] theorem digitsValue_digitsOf (n : Nat) : digitsValue (digitsOf n) = n := by
  have hvalue : digitsValue (digitsOf n) = Nat.ofDigitChars 10 (Nat.toDigits 10 n) 0 := by
    unfold digitsValue digitsOf Nat.ofDigitChars
    congr 1
    funext sofar c
    rw [mul_comm]
    rfl
  rw [hvalue, Nat.ofDigitChars_ten_toDigits]

theorem isDigit_of_mem_digitsOf {n : Nat} {c : Char} (h : c ∈ digitsOf n) : c.isDigit = true :=
  Nat.isDigit_of_mem_toDigits (by decide) (by decide) h

theorem digitsOf_ne_nil (n : Nat) : digitsOf n ≠ [] := Nat.toDigits_ne_nil

end Decimal

/-- The value of a digit. -/
def digitOf (c : Char) : Int := c.toNat - 48

namespace Numeral

/-- The literal with these digits before and behind the point; with none behind it there is no
point. -/
def ofChars (whole places : List Char) (h : whole ≠ []) : Numeral where
  whole := whole.map digitOf
  fraction := if places = [] then none else some (places.map digitOf)
  written := Or.inl (by simpa using h)

variable {whole places : List Char} {h : whole ≠ []}

/-- A literal has a point if and only if it has places. -/
theorem fraction_ofChars : (ofChars whole places h).fraction = none ↔ places = [] := by
  unfold ofChars
  by_cases hp : places = [] <;> simp [hp]

/-- The places of a literal are the digits behind its point. -/
theorem getD_fraction_ofChars :
    (ofChars whole places h).fraction.getD [] = places.map digitOf := by
  unfold ofChars
  by_cases hp : places = [] <;> simp [hp]

/-- A literal has as many places as there are digits behind its point. -/
theorem places_ofChars : (ofChars whole places h).places = places.length := by
  rw [Numeral.places, getD_fraction_ofChars, List.length_map]

/-- The mantissa of a literal is what all its digits are worth. -/
theorem mantissa_ofChars :
    (ofChars whole places h).mantissa = Decimal.digitsValue (whole ++ places) := by
  have hdigits : ∀ cs : List Char,
      Nat.ofDigits 10 ((cs.map digitOf).map Int.toNat).reverse = Decimal.digitsValue cs := by
    intro cs
    induction cs using List.reverseRecOn with
    | nil => rfl
    | append_singleton cs c ih =>
      have hc : (digitOf c).toNat = c.toNat - 48 := by
        unfold digitOf
        omega
      rw [List.map_append, List.map_append, List.reverse_append, List.map_singleton,
        List.map_singleton, List.reverse_singleton, List.singleton_append, Nat.ofDigits_cons, ih,
        Decimal.digitsValue_append, hc]
      simp [Decimal.digitsValue]
      ring
  have hwhole : (ofChars whole places h).whole = whole.map digitOf := rfl
  rw [Numeral.mantissa, getD_fraction_ofChars, hwhole, ← hdigits]
  simp only [List.map_append]

end Numeral

/-- A text of digits and at most one point, and the literal that it is. -/
structure Figure (cs : List Char) (n : Numeral) : Prop where
  numerals : ∀ c ∈ cs, Reader.isNumeral c = true
  ne_nil : cs ≠ []
  row_eq : Row.ofChars cs = n.row
  inRange : n.InRange
  short : cs.length ≤ 100

/-- Digits alone are read as digits. -/
theorem ofChars_digits {cs : List Char} (h : ∀ c ∈ cs, c.isDigit = true) :
    Row.ofChars cs = (cs.map digitOf).map Item.digit := by
  have hmap : ∀ c ∈ cs, Token.ofChar? c = some (.digit (digitOf c)) := fun c hc => if_pos (h c hc)
  rw [Row.ofChars, List.filterMap_congr hmap]
  simp [Item.digit]

/-- The items of digits with a point before those that are places. -/
theorem Numeral.row_ofChars {whole places : List Char} (hne : whole ≠ [])
    (hw : ∀ c ∈ whole, c.isDigit = true) (hp : ∀ c ∈ places, c.isDigit = true) :
    Row.ofChars (if places.isEmpty then whole else whole ++ '.' :: places) =
      (ofChars whole places hne).row := by
  cases places with
  | nil =>
    rw [if_pos List.isEmpty_nil, ofChars_digits hw]
    simp [Numeral.row, Numeral.ofChars]
  | cons p ps =>
    have hsplit : Row.ofChars (whole ++ '.' :: p :: ps) =
        Row.ofChars whole ++ .token .point :: Row.ofChars (p :: ps) := by
      simp [Row.ofChars, List.filterMap_append, List.filterMap_cons, Token.ofChar?]
    rw [if_neg (by simp), hsplit, ofChars_digits hw, ofChars_digits hp]
    simp [Numeral.row, Numeral.ofChars]

/-- Digits, and a point before those that are places, are a literal. -/
theorem figure_ofChars {whole places : List Char} (hne : whole ≠ [])
    (hw : ∀ c ∈ whole, c.isDigit = true) (hp : ∀ c ∈ places, c.isDigit = true)
    (hvalue : Decimal.digitsValue (whole ++ places) ≤ maxMagnitude)
    (hplaces : places.length ≤ maxPlaces) (hshort : whole.length ≤ 60) :
    Figure (if places.isEmpty then whole else whole ++ '.' :: places)
      (Numeral.ofChars whole places hne) where
  numerals := by
    have hdigit : ∀ c : Char, c.isDigit = true → Reader.isNumeral c = true := fun c hc => by
      simp [Reader.isNumeral, hc]
    intro c hc
    split at hc
    · exact hdigit c (hw c hc)
    · rcases List.mem_append.mp hc with hc | hc
      · exact hdigit c (hw c hc)
      · rcases List.mem_cons.mp hc with rfl | hc
        · rfl
        · exact hdigit c (hp c hc)
  ne_nil := by
    split
    · exact hne
    · simp
  row_eq := Numeral.row_ofChars hne hw hp
  inRange := by
    refine ⟨?_, ?_⟩
    · rw [Numeral.mantissa_ofChars]
      exact hvalue
    · rw [Numeral.places_ofChars]
      exact hplaces
  short := by
    have : maxPlaces = 28 := rfl
    split
    · omega
    · simp only [List.length_append, List.length_cons]
      omega

/-! ## Decimals -/

namespace Decimal

theorem length_digitsOf_le {n k : Nat} (hk : 0 < k) (h : n < 10 ^ k) : (digitsOf n).length ≤ k :=
  (Nat.length_toDigits_le_iff (by decide) hk).mpr h

/-- What stands before and behind the point. -/
structure SplitsAt (v : Decimal) (whole places : List Char) : Prop where
  split : v.splitAtPoint = (whole, places)
  whole_ne_nil : whole ≠ []
  digits : ∀ c ∈ whole ++ places, c.isDigit = true
  length_places : places.length = (-v.exponent).toNat
  value : digitsValue (whole ++ places) = v.digits * 10 ^ v.exponent.toNat
  short : v.digits * 10 ^ v.exponent.toNat ≤ maxMagnitude → whole.length ≤ 60

theorem maxMagnitude_lt_pow : maxMagnitude < 10 ^ 29 := by decide

theorem isDigit_of_mem_zeros {k : Nat} {c : Char} (h : c ∈ List.replicate k '0') :
    c.isDigit = true := by
  rw [List.eq_of_mem_replicate h]
  rfl

/-- An integer is written with as many zeros as its exponent says. -/
theorem exists_splitsAt_of_nonneg {v : Decimal} (hexp : 0 ≤ v.exponent) :
    ∃ whole places, v.SplitsAt whole places := by
  have hplaces : (-v.exponent).toNat = 0 := by omega
  by_cases hzero : v.digits = 0
  · refine ⟨['0'], [], ?_, by simp, by simp, by simp [hplaces], by simp [hzero, digitsValue],
      by simp⟩
    rw [splitAtPoint, if_pos hexp, if_pos hzero]
  · refine ⟨digitsOf v.digits ++ List.replicate v.exponent.toNat '0', [], ?_, ?_, ?_,
      by simp [hplaces], ?_, fun hle => ?_⟩
    · rw [splitAtPoint, if_pos hexp, if_neg hzero]
    · simp [digitsOf_ne_nil]
    · rw [List.append_nil]
      exact List.forall_mem_append.mpr
        ⟨fun _ => isDigit_of_mem_digitsOf, fun _ => isDigit_of_mem_zeros⟩
    · rw [List.append_nil, digitsValue_append, digitsValue_digitsOf, digitsValue_zeros,
        List.length_replicate, Nat.add_zero]
    · -- within range there are no more than 29 digits, with the zeros
      have hlt := lt_of_le_of_lt hle maxMagnitude_lt_pow
      have hpow : 10 ^ v.exponent.toNat < 10 ^ 29 :=
        lt_of_le_of_lt (Nat.le_mul_of_pos_left _ (by omega)) hlt
      have hexp' := (Nat.pow_lt_pow_iff_right (by decide)).mp hpow
      have hdigits : v.digits < 10 ^ 29 :=
        lt_of_le_of_lt (Nat.le_mul_of_pos_right _ (by positivity)) hlt
      have hlen := length_digitsOf_le (by decide) hdigits
      rw [List.length_append, List.length_replicate]
      omega

/-- Zeros are put in front until there is a digit before the point. -/
theorem exists_splitsAt_of_neg {v : Decimal} (hexp : v.exponent < 0) :
    ∃ whole places, v.SplitsAt whole places := by
  obtain ⟨zeros, hzeros⟩ :
      ∃ k, k = (-v.exponent).toNat + 1 - (digitsOf v.digits).length := ⟨_, rfl⟩
  obtain ⟨padded, hpadded⟩ :
      ∃ cs, cs = List.replicate zeros '0' ++ digitsOf v.digits := ⟨_, rfl⟩
  have hlen : padded.length = zeros + (digitsOf v.digits).length := by
    rw [hpadded, List.length_append, List.length_replicate]
  have hpow : v.exponent.toNat = 0 := by omega
  -- with the zeros there are more digits than places, so that the part in front of the point is not
  -- empty
  refine ⟨padded.take (padded.length - (-v.exponent).toNat),
    padded.drop (padded.length - (-v.exponent).toNat), ?_, ?_, ?_, ?_, ?_, fun hle => ?_⟩
  · rw [splitAtPoint, if_neg (by omega)]
    simp only [← hzeros, ← hpadded, List.splitAt_eq]
  · intro hnil
    have := congrArg List.length hnil
    rw [List.length_take, List.length_nil] at this
    omega
  · rw [List.take_append_drop, hpadded]
    exact List.forall_mem_append.mpr
      ⟨fun _ => isDigit_of_mem_zeros, fun _ => isDigit_of_mem_digitsOf⟩
  · rw [List.length_drop]
    omega
  · rw [List.take_append_drop, hpadded, digitsValue_append, digitsValue_zeros,
      digitsValue_digitsOf, hpow]
    simp
  · rw [hpow, pow_zero, mul_one] at hle
    have hdigits := length_digitsOf_le (k := 29) (by decide) (lt_of_le_of_lt hle maxMagnitude_lt_pow)
    rw [List.length_take]
    omega

/-- Every decimal can be split at its point, and its digits around the point are those of its
coefficient and the zeros that its exponent stands for. -/
theorem exists_splitsAt (v : Decimal) : ∃ whole places, v.SplitsAt whole places := by
  by_cases hexp : 0 ≤ v.exponent
  · exact exists_splitsAt_of_nonneg hexp
  · exact exists_splitsAt_of_neg (by omega)

/-- The zeros at the end of the places, and what is before them. -/
theorem exists_dropTrailing (cs : List Char) :
    ∃ k, cs = dropTrailing '0' cs ++ List.replicate k '0' := by
  refine ⟨(cs.reverse.takeWhile (· == '0')).length, ?_⟩
  have hzeros : ∀ c ∈ cs.reverse.takeWhile (· == '0'), c = '0' := by
    intro c hc
    have hzero := List.mem_takeWhile_imp (p := (· == '0')) hc
    simpa using hzero
  have hsplit := List.takeWhile_append_dropWhile (p := (· == '0')) (l := cs.reverse)
  have hcs := congrArg List.reverse hsplit
  rw [List.reverse_append, List.reverse_reverse] at hcs
  rw [← List.reverse_replicate, ← List.eq_replicate_iff.mpr ⟨rfl, hzeros⟩]
  exact hcs.symm

end Decimal

/-- The literal that a decimal is written as: the zeros at the end of its places are left out. -/
structure Shown (v : Decimal) (cs : List Char) (n : Numeral) : Prop extends Figure cs n where
  pointed : n.fraction = none ↔ n.places = 0
  value : ∃ k, n.mantissa * 10 ^ k = v.digits * 10 ^ v.exponent.toNat ∧
    n.places + k = (-v.exponent).toNat

/-- A stored decimal within the range of literals is written as a literal, perhaps behind a minus
sign. -/
theorem Decimal.plain_shown {v : Decimal} (hv : v.Stored)
    (hmax : v.digits * 10 ^ v.exponent.toNat ≤ maxMagnitude) :
    ∃ cs n, Shown v cs n ∧
      v.plain = if v.negative && v.digits != 0 then '-' :: cs else cs := by
  obtain ⟨whole, places, hsplit⟩ := v.exists_splitsAt
  obtain ⟨k, hk⟩ := exists_dropTrailing places
  generalize hkept : dropTrailing '0' places = kept at hk
  -- leaving zeros away at the end divides the digits and shortens the places
  have hvalue : digitsValue (whole ++ kept) * 10 ^ k = v.digits * 10 ^ v.exponent.toNat := by
    rw [← hsplit.value, hk, ← List.append_assoc, digitsValue_append (whole ++ kept),
      digitsValue_zeros, List.length_replicate, Nat.add_zero]
  have hlength : kept.length + k = (-v.exponent).toNat := by
    rw [← hsplit.length_places, hk, List.length_append, List.length_replicate]
  refine ⟨_, Numeral.ofChars whole kept hsplit.whole_ne_nil, ⟨figure_ofChars hsplit.whole_ne_nil
    (fun c hc => hsplit.digits c (by simp [hc])) (fun c hc => hsplit.digits c ?_) ?_ ?_
    (hsplit.short hmax), ?_, k, ?_, ?_⟩, ?_⟩
  · rw [hk]
    simp [hc]
  · exact le_trans (Nat.le_mul_of_pos_right _ (by positivity)) (hvalue ▸ hmax)
  · have hplaces := hv.places
    omega
  · rw [Numeral.fraction_ofChars, Numeral.places_ofChars, List.length_eq_zero_iff]
  · rw [Numeral.mantissa_ofChars]
    exact hvalue
  · rw [Numeral.places_ofChars]
    exact hlength
  · rw [plain, hsplit.split]
    simp only [hkept]

/-! ## Fractions -/

namespace Numeral

/-- A whole number as a literal. -/
def ofNat (k : Nat) : Numeral := ofChars (Decimal.digitsOf k) [] (Decimal.digitsOf_ne_nil k)

/-- A whole number that is not too large is a literal without a point. -/
theorem figure_ofNat {k : Nat} (h : k ≤ maxMagnitude) : Figure (Decimal.digitsOf k) (ofNat k) := by
  have hmax : maxMagnitude < 10 ^ 29 := by decide
  have hvalue : Decimal.digitsValue (Decimal.digitsOf k ++ []) = k := by simp
  have hshort := Decimal.length_digitsOf_le (k := 29) (by decide) (lt_of_le_of_lt h hmax)
  have hdigit : ∀ c ∈ Decimal.digitsOf k, c.isDigit = true := fun c hc =>
    Decimal.isDigit_of_mem_digitsOf hc
  exact @figure_ofChars (Decimal.digitsOf k) [] (Decimal.digitsOf_ne_nil k) hdigit (by simp)
    (hvalue.trans_le h) (by simp) (by omega)

/-- A whole number that fits a word is read as itself. -/
theorem number_ofNat {k : Nat} (h : (k : Int) ≤ maxWord) : (ofNat k).number = .ratio k 1 := by
  have hmantissa : (ofNat k).mantissa = k := by
    rw [ofNat, mantissa_ofChars, List.append_nil, Decimal.digitsValue_digitsOf]
  have hfraction : (ofNat k).fraction = none := fraction_ofChars.mpr rfl
  rw [number, hmantissa, if_pos ⟨hfraction, h⟩]

end Numeral

namespace Number

/-- The text of a number, and the expression that it is. The flags say whether there is a minus
sign, and whether it is a quotient. -/
inductive Spelled : Bool → Bool → List Char → Expr → Prop
  | literal {cs : List Char} {n : Numeral} (h : Figure cs n) :
      Spelled false false cs (.number n.number)
  | negative {cs : List Char} {n : Numeral} (h : Figure cs n) :
      Spelled true false ('-' :: cs) (.number n.number.opposite)
  | quotient {cs ds : List Char} {m n : Numeral} (hm : Figure cs m) (hn : Figure ds n) :
      Spelled false true (cs ++ '/' :: ds)
        (.binary .divide (.number m.number) (.number n.number))
  | negativeQuotient {cs ds : List Char} {m n : Numeral} (hm : Figure cs m) (hn : Figure ds n) :
      Spelled true true ('-' :: (cs ++ '/' :: ds))
        (.binary .divide (.number m.number.opposite) (.number n.number))

/-- Whether a number is written as a quotient. -/
def isQuotient : Number → Bool
  | ratio _ d => d != 1
  | decimal .. => false

/-- An integer is written as the digits of its magnitude, with a minus if it is negative. -/
theorem toList_toString_int (n : Int) :
    (toString n).toList =
      if n < 0 then '-' :: Decimal.digitsOf n.natAbs else Decimal.digitsOf n.natAbs := by
  cases n with
  | ofNat k => simp [toString, Int.repr, Nat.repr, Decimal.digitsOf]
  | negSucc k => simp [toString, Int.repr, Nat.repr, Decimal.digitsOf, Int.negSucc_lt_zero]

/-- A fraction is written as its numerator, and behind a slash its denominator if that is not one.
-/
theorem toList_text_ratio (n d : Int) :
    (Number.ratio n d).text.toList =
      if d = 1 then (toString n).toList else (toString n).toList ++ '/' :: (toString d).toList := by
  by_cases hd : d = 1 <;> simp [text, hd, toString]

/-- A fraction that is a quotient with words as its parts already is what simplifying gives. -/
theorem simplify_of_fits {n d : Int} (hd : d ≠ 0) (h : Fits (n / d)) :
    simplify (.ratio n d) = .ok (ofRat (n / d)) := by
  obtain ⟨hnum, hden⟩ := lowest_terms n hd
  simp only [simplify]
  rw [hnum, hden, word, if_pos h.1, ok_bind, word, if_pos h.2]
  rfl

/-- The quotient of the parts of a fraction is the fraction. -/
theorem div_parts {q : ℚ} (h : Fits q) : div (.ratio q.num 1) (.ratio q.den 1) = .ok (ofRat q) := by
  have hq : Fits ((q.num : ℚ) / ((q.den : Int) : ℚ)) := by
    rw [Int.cast_natCast, Rat.num_div_den]
    exact h
  rw [div, if_neg (by simp [isZero])]
  change simplify (.ratio (q.num * 1) (1 * q.den)) = _
  rw [mul_one, one_mul, simplify_of_fits (ofRat_den_ne_zero q) hq, Int.cast_natCast, Rat.num_div_den]

theorem natAbs_le_of_isWord {n : Int} (h : isWord n = true) : n.natAbs ≤ maxMagnitude :=
  (natAbs_lt_of_isWord h).le.trans (by decide)

/-- What is read where an integer is written. -/
def ofSpelledInt (n : Int) : Number :=
  if n < 0 then (Numeral.ofNat n.natAbs).number.opposite else (Numeral.ofNat n.natAbs).number

/-- The digits of the least word are too many for a word. -/
theorem ofSpelledInt_eq {n : Int} (h : isWord n = true) (hleast : n ≠ -maxWord - 1) :
    ofSpelledInt n = .ratio n 1 := by
  simp only [isWord, Bool.and_eq_true, decide_eq_true_eq] at h
  rw [ofSpelledInt, Numeral.number_ofNat (by omega)]
  split
  · rw [opposite, Int.ofNat_natAbs_of_nonpos (by omega), neg_neg]
  · rw [Int.natAbs_of_nonneg (by omega)]

/-- An integer is spelled as a literal, or as the opposite of one behind a minus. -/
theorem spelled_int {n : Int} (h : isWord n = true) :
    Spelled (decide (n < 0)) false (toString n).toList (.number (ofSpelledInt n)) := by
  have hfigure := Numeral.figure_ofNat (natAbs_le_of_isWord h)
  rw [toList_toString_int, ofSpelledInt]
  by_cases hneg : n < 0
  · simp only [hneg, if_true, decide_true]
    exact .negative hfigure
  · simp only [hneg, if_false, decide_false]
    exact .literal hfigure

/-- A fraction is spelled as an integer and a literal with a slash between them. -/
theorem spelled_quotient {n : Int} {d : Nat} (hn : isWord n = true)
    (hd : isWord (d : Int) = true) :
    Spelled (decide (n < 0)) true ((toString n).toList ++ '/' :: (toString (d : Int)).toList)
      (.binary .divide (.number (ofSpelledInt n)) (.number (Numeral.ofNat d).number)) := by
  have hnum := Numeral.figure_ofNat (natAbs_le_of_isWord hn)
  have hden := Numeral.figure_ofNat (natAbs_le_of_isWord hd)
  have hpositive : ¬ (d : Int) < 0 := by omega
  rw [toList_toString_int, toList_toString_int, if_neg hpositive, ofSpelledInt]
  by_cases hneg : n < 0
  · simp only [hneg, if_true, decide_true]
    exact .negativeQuotient hnum hden
  · simp only [hneg, if_false, decide_false]
    exact .quotient hnum hden

/-- A fraction in lowest terms is negative if and only if its numerator is. -/
theorem isNegative_ratio_den (q : ℚ) :
    (Number.ratio q.num q.den).isNegative = decide (q.num < 0) := by
  have hpositive : ¬ (q.den : Int) < 0 := by omega
  simp only [isNegative, hpositive, decide_false, Bool.bne_false]
  by_cases hneg : q.num < 0
  · simp [hneg, ne_of_lt hneg]
  · simp [hneg]

/-- The least fraction of a denominator is the only one that is not read as itself. -/
theorem spelled_ofRat {q : ℚ} (h : Fits q) :
    ∃ e, Spelled (ofRat q).isNegative (ofRat q).isQuotient (ofRat q).text.toList e ∧
      (q.num ≠ -maxWord - 1 → ∀ settings, e.eval settings = .ok (ofRat q)) := by
  rw [ofRat, isNegative_ratio_den, toList_text_ratio]
  by_cases hone : (q.den : Int) = 1
  · have hquotient : (Number.ratio q.num q.den).isQuotient = false := by simp [isQuotient, hone]
    rw [if_pos hone, hquotient]
    refine ⟨_, spelled_int h.1, fun hleast settings => ?_⟩
    rw [Expr.eval, ofSpelledInt_eq h.1 hleast, hone]
  · have hquotient : (Number.ratio q.num q.den).isQuotient = true := by simp [isQuotient, hone]
    have hden : (q.den : Int) ≤ maxWord := by
      have hd := h.2
      simp only [isWord, Bool.and_eq_true, decide_eq_true_eq] at hd
      exact hd.2
    rw [if_neg hone, hquotient]
    refine ⟨_, spelled_quotient h.1 h.2, fun hleast settings => ?_⟩
    rw [Expr.eval, Expr.eval, Expr.eval, ok_bind, ok_bind, ofSpelledInt_eq h.1 hleast,
      Numeral.number_ofNat hden]
    exact div_parts h

end Number

/-! ## Values -/

namespace Decimal

/-- Only zeros are rounded away where nothing else is beyond the precision. -/
theorem value_round {p m : Nat} (hm : digitCount m ≤ p) (negative : Bool) (j : Nat) (e : Int) :
    ((⟨negative, m * 10 ^ j, e⟩ : Decimal).round p).value =
      (⟨negative, m * 10 ^ j, e⟩ : Decimal).value := by
  by_cases hzero : m = 0
  · have hcount : digitCount (⟨negative, m * 10 ^ j, e⟩ : Decimal).digits ≤ p := by
      change digitCount (m * 10 ^ j) ≤ p
      rw [hzero, Nat.zero_mul]
      exact hzero ▸ hm
    rw [round_of_digitCount_le hcount]
  · obtain ⟨x, hx, hround⟩ := round_mul_pow (k := j) hzero hm negative e
    rw [hround, value_eq, value_eq]
    obtain ⟨y, rfl⟩ := Nat.exists_eq_add_of_le hx
    rw [Nat.add_sub_cancel_left, zpow_add₀ (by norm_num), zpow_natCast, pow_add]
    push_cast
    ring

end Decimal

namespace Numeral

/-- The value of a literal is its mantissa, moved behind the point by its places. -/
theorem value_number (n : Numeral) : n.number.value = n.mantissa / 10 ^ n.places := by
  unfold number
  split
  · next h =>
    have hplaces : n.places = 0 := by simp [Numeral.places, h.1]
    simp [Number.value, hplaces]
  · rw [Number.value, Decimal.value_eq, zpow_neg, zpow_natCast, div_eq_mul_inv]
    simp

/-- The opposite of a literal that has nothing but zeros beyond the precision. -/
theorem value_opposite {n : Numeral} {m j : Nat} (hn : n.mantissa = m * 10 ^ j)
    (hm : Decimal.digitCount m ≤ precision) : n.number.opposite.value = -n.number.value := by
  unfold number
  split
  · simp only [Number.opposite, Number.value]
    push_cast
    ring
  · simp only [Number.opposite, Number.value]
    rw [hn, Decimal.negate]
    split
    · next hzero =>
      have hzero' : m * 10 ^ j = 0 := hzero
      simp [Decimal.value_eq, hzero']
    · rw [Decimal.flip]
      dsimp only
      rw [Decimal.value_round hm, Decimal.value_eq, Decimal.value_eq]
      simp

end Numeral

theorem Shown.value_eq {v : Decimal} {cs : List Char} {n : Numeral} (h : Shown v cs n) :
    n.number.value = v.digits * 10 ^ v.exponent := by
  obtain ⟨k, hvalue, hlength⟩ := h.value
  have hcast : (n.mantissa : ℚ) * 10 ^ k = v.digits * 10 ^ v.exponent.toNat := by exact_mod_cast hvalue
  have hexp : v.exponent = (v.exponent.toNat : Int) - ((n.places + k : Nat) : Int) := by omega
  rw [n.value_number, hexp, zpow_sub₀ (by norm_num), zpow_natCast, zpow_natCast, ← mul_div_assoc]
  have htoNat : ((v.exponent.toNat : Int) - ((n.places + k : Nat) : Int)).toNat = v.exponent.toNat := by
    omega
  rw [← hcast, pow_add]
  field_simp

/-- Nothing of a decimal is lost in writing: it has places and the last one is not zero, or it is a
whole number beyond the words. -/
def Decimal.WrittenInFull (v : Decimal) : Prop :=
  v.exponent < 0 ∧ v.digits % 10 ≠ 0 ∨ v.exponent = 0 ∧ maxWord < v.digits

theorem Decimal.WrittenInFull.digits_ne_zero {v : Decimal} (h : v.WrittenInFull) :
    v.digits ≠ 0 := by
  rcases h with ⟨-, hlast⟩ | ⟨-, hbeyond⟩
  · rintro hzero
    simp [hzero] at hlast
  · unfold maxWord at hbeyond
    omega

/-- The literal that is written in full gives back the coefficient and the exponent, not only the
value. -/
theorem Shown.number_eq {v : Decimal} {cs : List Char} {n : Numeral} (h : Shown v cs n)
    (hv : v.WrittenInFull) : n.number = .decimal ⟨false, v.digits, v.exponent⟩ .exact := by
  obtain ⟨k, hmantissa, hlength⟩ := h.value
  have htoNat : v.exponent.toNat = 0 := by
    rcases hv with ⟨hexp, -⟩ | ⟨hexp, -⟩ <;> omega
  rw [htoNat, pow_zero, mul_one] at hmantissa
  have hk : k = 0 := by
    rcases hv with ⟨-, hlast⟩ | ⟨hexp, -⟩
    · by_contra hne
      obtain ⟨j, rfl⟩ := Nat.exists_eq_succ_of_ne_zero hne
      rw [← hmantissa, pow_succ, ← mul_assoc, Nat.mul_mod_left] at hlast
      exact hlast rfl
    · omega
  rw [hk, pow_zero, mul_one] at hmantissa
  have hexp : -(n.places : Int) = v.exponent := by
    rcases hv with ⟨hneg, -⟩ | ⟨hzero, -⟩ <;> omega
  have hnot : ¬ (n.fraction = none ∧ (n.mantissa : Int) ≤ maxWord) := by
    rintro ⟨hnone, hword⟩
    have hplaces := h.pointed.mp hnone
    rcases hv with ⟨hneg, -⟩ | ⟨-, hbeyond⟩
    · omega
    · omega
  rw [Numeral.number, if_neg hnot, hmantissa, hexp]

/-- A decimal is read as a number of the same value, and as itself if it is written in full. -/
theorem Number.spelled_decimal {v : Decimal} (hv : v.Stored)
    (hmax : v.digits * 10 ^ v.exponent.toNat ≤ maxMagnitude) (a : Accuracy) :
    ∃ y, Spelled (Number.decimal v a).isNegative false (Number.decimal v a).text.toList (.number y) ∧
      y.value = v.value ∧ (v.WrittenInFull → y = .decimal v .exact) := by
  obtain ⟨cs, n, hshown, hplain⟩ := Decimal.plain_shown hv hmax
  have htext : (Number.decimal v a).text.toList = v.plain := by simp [text]
  have hminus : (Number.decimal v a).isNegative = (v.negative && v.digits != 0) := rfl
  rw [htext, hplain, hminus]
  by_cases hneg : v.negative = true
  · have hvalue : v.value = -(v.digits * 10 ^ v.exponent) := by
      simp [Decimal.value, Decimal.signedDigits, hneg]
    -- a negative decimal has few enough digits, and beyond them only the zeros of its exponent
    have hopposite : n.number.opposite.value = -n.number.value := by
      obtain ⟨k, hmantissa, hlength⟩ := hshown.value
      by_cases hexp : 0 < v.exponent
      · have hk : k = 0 := by omega
        rw [hk, pow_zero, mul_one] at hmantissa
        exact Numeral.value_opposite hmantissa (hv.sign hneg)
      · have htoNat : v.exponent.toNat = 0 := by omega
        rw [htoNat, pow_zero, mul_one] at hmantissa
        have hle : n.mantissa ≤ v.digits :=
          hmantissa ▸ Nat.le_mul_of_pos_right _ (by positivity)
        have hlt := Decimal.lt_pow_of_digitCount_le (hv.sign hneg)
        exact Numeral.value_opposite (j := 0) (by simp)
          (Decimal.digitCount_le (by decide) (lt_of_le_of_lt hle hlt))
    by_cases hzero : v.digits = 0
    · refine ⟨n.number, ?_, ?_, fun hfull => absurd hzero hfull.digits_ne_zero⟩
      · simp only [hneg, hzero]
        exact .literal hshown.toFigure
      · rw [hshown.value_eq, hvalue, hzero]
        simp
    · have hdigits : (v.negative && v.digits != 0) = true := by simp [hneg, hzero]
      refine ⟨n.number.opposite, ?_, ?_, fun hfull => ?_⟩
      · rw [hdigits, if_pos rfl]
        exact .negative hshown.toFigure
      · rw [hopposite, hshown.value_eq, hvalue]
      · have hflip : (⟨false, v.digits, v.exponent⟩ : Decimal).flip = v := by
          rw [Decimal.flip, Bool.not_false, ← hneg]
        rw [hshown.number_eq hfull, opposite, Decimal.negate, if_neg hzero, hflip,
          Decimal.round_of_digitCount_le (hv.sign hneg)]
  · have hsign : v.negative = false := Bool.eq_false_iff.mpr hneg
    refine ⟨n.number, ?_, ?_, fun hfull => ?_⟩
    · simp only [hsign, Bool.false_and, Bool.false_eq_true, if_false]
      exact .literal hshown.toFigure
    · rw [hshown.value_eq, Decimal.value, Decimal.signedDigits, if_neg hneg]
      simp
    · rw [hshown.number_eq hfull, ← hsign]

end Mathpad
