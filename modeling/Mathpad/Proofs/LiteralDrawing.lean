import Mathlib.Tactic.IntervalCases
import Mathpad.Proofs.ExplicitRows
import Mathpad.Proofs.Notations

/-!
# A canonical literal is drawn as it is spelled

The number of a canonical literal is written with the same digits before and behind the point:
digits in front are not lost, since there are none that say nothing, and those behind the
point are kept, since the number knows how many places it has. So the blocks of a number are
the blocks of its literal (`Block.ofNumber_canonical`).
-/
set_option autoImplicit false

namespace Mathpad

namespace Decimal

theorem digitsValue_cons (c : Char) (cs : List Char) :
    digitsValue (c :: cs) = (c.toNat - 48) * 10 ^ cs.length + digitsValue cs := by
  have hsingle : digitsValue [c] = c.toNat - 48 := Nat.zero_add _
  rw [← List.singleton_append, digitsValue_append, hsingle]

/-- The value of some digits is below the power of ten with as many zeros. -/
theorem digitsValue_lt {cs : List Char} (h : ∀ c ∈ cs, c.isDigit = true) :
    digitsValue cs < 10 ^ cs.length := by
  induction cs with
  | nil => exact Nat.one_pos
  | cons c cs ih =>
    obtain ⟨hc, hcs⟩ := List.forall_mem_cons.mp h
    have hcode := Text.toNat_of_isDigit hc
    have hrest := ih hcs
    have hdigit : (c.toNat - 48) * 10 ^ cs.length ≤ 9 * 10 ^ cs.length :=
      Nat.mul_le_mul_right _ (by omega)
    rw [digitsValue_cons, List.length_cons, pow_succ]
    omega

/-- Texts of the same number of digits have different values. -/
theorem eq_of_digitsValue_eq {cs ds : List Char} (hlength : cs.length = ds.length)
    (hcs : ∀ c ∈ cs, c.isDigit = true) (hds : ∀ d ∈ ds, d.isDigit = true)
    (h : digitsValue cs = digitsValue ds) : cs = ds := by
  induction cs generalizing ds with
  | nil => exact (List.length_eq_zero_iff.mp hlength.symm).symm
  | cons c cs ih =>
    cases ds with
    | nil => cases hlength
    | cons d ds =>
      obtain ⟨hc, hcs⟩ := List.forall_mem_cons.mp hcs
      obtain ⟨hd, hds⟩ := List.forall_mem_cons.mp hds
      have hlength' : cs.length = ds.length := Nat.succ.inj hlength
      have hlow := digitsValue_lt hcs
      have hlow' := digitsValue_lt hds
      rw [digitsValue_cons, digitsValue_cons, hlength', Nat.mul_comm, Nat.mul_comm (d.toNat - 48)] at h
      rw [hlength'] at hlow
      -- what is left behind the first digit is the rest modulo a power of ten
      have hunits : digitsValue cs = digitsValue ds := by
        have hmod := congrArg (· % 10 ^ ds.length) h
        simpa [Nat.mul_add_mod, Nat.mod_eq_of_lt hlow, Nat.mod_eq_of_lt hlow'] using hmod
      have hfirst : c.toNat - 48 = d.toNat - 48 := by
        rw [hunits] at h
        exact Nat.eq_of_mul_eq_mul_left (by positivity) (Nat.add_right_cancel h)
      have hcode := Text.toNat_of_isDigit hc
      have hcode' := Text.toNat_of_isDigit hd
      have hchar : c = d := Char.toNat_inj.mp (by omega)
      rw [ih hlength' hcs hds hunits, hchar]

/-- Some digits are those of their value, with zeros in front. -/
theorem zeros_append_digitsOf {cs : List Char} (h : ∀ c ∈ cs, c.isDigit = true) (hne : cs ≠ []) :
    List.replicate (cs.length - (digitsOf (digitsValue cs)).length) '0' ++
      digitsOf (digitsValue cs) = cs := by
  have hshort := length_digitsOf_le (List.length_pos_iff.mpr hne) (digitsValue_lt h)
  refine eq_of_digitsValue_eq ?_ ?_ h ?_
  · rw [List.length_append, List.length_replicate, Nat.sub_add_cancel hshort]
  · exact List.forall_mem_append.mpr
      ⟨fun _ => isDigit_of_mem_zeros, fun _ => isDigit_of_mem_digitsOf⟩
  · rw [digitsValue_append, digitsValue_zeros, digitsValue_digitsOf, Nat.zero_mul, Nat.zero_add]

/-- If the first one is not a zero then there are none in front. -/
theorem length_digitsOf_digitsValue {c : Char} {cs : List Char}
    (h : ∀ d ∈ c :: cs, d.isDigit = true) (hzero : c ≠ '0') :
    (digitsOf (digitsValue (c :: cs))).length = (c :: cs).length := by
  refine Nat.le_antisymm (length_digitsOf_le (Nat.succ_pos _) (digitsValue_lt h)) ?_
  have hcode := Text.toNat_of_isDigit (h c (by simp))
  have hnonzero : c.toNat ≠ 48 := fun heq =>
    hzero (Char.toNat_inj.mp (show c.toNat = '0'.toNat from heq))
  have hpow : 10 ^ cs.length ≤ (c.toNat - 48) * 10 ^ cs.length :=
    Nat.le_mul_of_pos_left _ (by omega)
  by_contra hless
  rw [List.length_cons] at hless
  have hsome := List.length_pos_iff.mpr (digitsOf_ne_nil (digitsValue (c :: cs)))
  have hvalue : digitsValue (c :: cs) < 10 ^ cs.length :=
    (Nat.length_toDigits_le_iff (by decide) (by omega)).mp (by
      show (digitsOf (digitsValue (c :: cs))).length ≤ _
      omega)
  rw [digitsValue_cons] at hvalue
  omega

/-- Digits without zeros in front are the ones that are written for their value. -/
theorem splitAtPoint_digitsValue {whole places : List Char} (negative : Bool)
    (hdigits : ∀ c ∈ whole ++ places, c.isDigit = true) (hne : whole ≠ [])
    (hzero : whole.head? = some '0' → whole = ['0']) :
    splitAtPoint ⟨negative, digitsValue (whole ++ places), -(places.length : Int)⟩ =
      (whole, places) := by
  obtain ⟨c, cs, rfl⟩ := List.exists_cons_of_ne_nil hne
  have hpadded := zeros_append_digitsOf hdigits (by simp)
  have hsome := List.length_pos_iff.mpr (digitsOf_ne_nil (digitsValue (c :: cs ++ places)))
  have hlength : (c :: cs ++ places).length = cs.length + 1 + places.length := List.length_append
  -- there is one digit before the point, or all of them are digits of the value
  have hcount : (c :: cs ++ places).length - (digitsOf (digitsValue (c :: cs ++ places))).length =
      places.length + 1 - (digitsOf (digitsValue (c :: cs ++ places))).length := by
    by_cases hfirst : c = '0'
    · have hcs : cs = [] := (List.cons.inj (hzero (congrArg some hfirst))).2
      rw [hlength, hcs, List.length_nil]
      omega
    · have hfull : (digitsOf (digitsValue (c :: cs ++ places))).length =
          (c :: cs ++ places).length := length_digitsOf_digitsValue hdigits hfirst
      omega
  rw [hcount] at hpadded
  generalize digitsValue (c :: cs ++ places) = m at *
  unfold splitAtPoint
  dsimp only
  by_cases hplaces : places = []
  · obtain rfl := hplaces
    have hwhole : digitsOf m = c :: cs := by
      rw [List.append_nil, List.length_nil, show 0 + 1 - (digitsOf m).length = 0 by omega] at hpadded
      exact hpadded
    rw [if_pos (by simp)]
    by_cases hm : m = 0
    · rw [if_pos hm, ← hwhole, hm]
      rfl
    · rw [if_neg hm]
      simp [hwhole]
  · have hlen := List.length_pos_iff.mpr hplaces
    have hbefore : (c :: cs ++ places).length - places.length = (c :: cs).length := by
      rw [List.length_append, Nat.add_sub_cancel]
    rw [if_neg (by omega), Int.neg_neg, Int.toNat_natCast, hpadded, List.splitAt_eq, hbefore,
      List.take_left, List.drop_left]

end Decimal

namespace Numeral

/-- Numbers from zero to nine are the values of digits. -/
theorem exists_digitChars {ds : List Int} (h : ∀ d ∈ ds, 0 ≤ d ∧ d ≤ 9) :
    ∃ cs : List Char, (∀ c ∈ cs, c.isDigit = true) ∧ cs.map digitOf = ds := by
  induction ds with
  | nil => exact ⟨[], by simp, rfl⟩
  | cons d ds ih =>
    obtain ⟨⟨hlow, hhigh⟩, hds⟩ := List.forall_mem_cons.mp h
    obtain ⟨cs, hcs, rfl⟩ := ih hds
    have hchar : ∃ c : Char, c.isDigit = true ∧ digitOf c = d := by
      interval_cases d
      exacts [⟨'0', rfl, rfl⟩, ⟨'1', rfl, rfl⟩, ⟨'2', rfl, rfl⟩, ⟨'3', rfl, rfl⟩, ⟨'4', rfl, rfl⟩,
        ⟨'5', rfl, rfl⟩, ⟨'6', rfl, rfl⟩, ⟨'7', rfl, rfl⟩, ⟨'8', rfl, rfl⟩, ⟨'9', rfl, rfl⟩]
    obtain ⟨c, hc, rfl⟩ := hchar
    exact ⟨c :: cs, List.forall_mem_cons.mpr ⟨hc, hcs⟩, rfl⟩

/-- A canonical literal in characters. -/
theorem Canonical.exists_chars {n : Numeral} (h : n.Canonical) :
    ∃ (whole places : List Char) (hne : whole ≠ []), n = ofChars whole places hne ∧
      (∀ c ∈ whole, c.isDigit = true) ∧ (∀ c ∈ places, c.isDigit = true) ∧
      (whole.head? = some '0' → whole = ['0']) := by
  obtain ⟨hdigits, hwhole, hfraction, hzero⟩ := h
  obtain ⟨ds, fraction, written⟩ := n
  obtain ⟨hds, hfs⟩ := List.forall_mem_append.mp hdigits
  obtain ⟨whole, hw, rfl⟩ := exists_digitChars hds
  obtain ⟨places, hp, hplaces⟩ := exists_digitChars hfs
  have hne : whole ≠ [] := fun hnil => hwhole (congrArg (List.map digitOf) hnil)
  refine ⟨whole, places, hne, ?_, hw, hp, fun hhead => ?_⟩
  · have hpoint : fraction = if places = [] then none else some (places.map digitOf) := by
      cases fraction with
      | none => rw [if_pos (List.map_eq_nil_iff.mp hplaces)]
      | some fs =>
        obtain rfl : places.map digitOf = fs := hplaces
        rw [if_neg fun hnil => hfraction (congrArg some (List.map_eq_nil_iff.mpr hnil))]
    subst hpoint
    rfl
  · obtain ⟨more, rfl⟩ : ∃ more, whole = '0' :: more := List.head?_eq_some_iff.mp hhead
    have hmore := (List.cons.inj (hzero rfl)).2
    rw [List.map_eq_nil_iff.mp hmore]

end Numeral

namespace Block

variable {r : Renderer} {level : Int}

/-- Tokens are drawn one by one, each as its glyph. -/
theorem mapM_ofItem_tokens (ts : List Token) :
    (ts.map Item.token).mapM (ofItem r level none) =
      .ok (ts.map fun t => ofGlyph r level (.ofToken t)) := by
  rw [List.mapM_map]
  exact mapM_eq_map fun _ _ => rfl

/-- The glyphs of a text of numerals are those of its tokens. -/
theorem exists_numeralTokens {cs : List Char} (h : ∀ c ∈ cs, c.isDigit = true ∨ c = '.') :
    ∃ ts : List Token, Row.ofChars cs = ts.map Item.token ∧
      cs.mapM numeralGlyph = .ok (ts.map Glyph.ofToken) ∧ ∀ t ∈ ts, (Glyph.ofToken t).IsMark := by
  induction cs with
  | nil => exact ⟨[], rfl, rfl, by simp⟩
  | cons c cs ih =>
    obtain ⟨hc, hcs⟩ := List.forall_mem_cons.mp h
    obtain ⟨ts, hitems, hglyphs, hmarks⟩ := ih hcs
    have htoken : ∃ t, Token.ofChar? c = some t ∧ numeralGlyph c = .ok (Glyph.ofToken t) := by
      by_cases hpoint : c = '.'
      · exact ⟨.point, by rw [hpoint]; rfl, by rw [hpoint]; rfl⟩
      · have hdigit := hc.resolve_right hpoint
        refine ⟨.digit (c.toNat - 48), if_pos hdigit, ?_⟩
        rw [numeralGlyph, if_neg hpoint, if_pos hdigit]
        rfl
    obtain ⟨t, ht, hglyph⟩ := htoken
    have hmark : (Glyph.ofToken t).IsMark := (numeralGlyph_isMark hc).of_ok hglyph
    refine ⟨t :: ts, ?_, ?_, List.forall_mem_cons.mpr ⟨hmark, hmarks⟩⟩
    · have hcons : Row.ofChars (c :: cs) = .token t :: Row.ofChars cs := by
        simp [Row.ofChars, ht]
      rw [hcons, hitems, List.map_cons]
    · rw [List.mapM_cons, hglyph, ok_bind, hglyphs]
      rfl

/-- The number of a canonical literal is drawn as the literal. -/
theorem ofNumber_canonical (r : Renderer) (level : Int) {n : Numeral} (h : n.Canonical) :
    ∃ ts : List Token, n.row = ts.map Item.token ∧ (∀ t ∈ ts, (Glyph.ofToken t).IsMark) ∧
      ofNumber r level n.number = .ok (row (ts.map fun t => ofGlyph r level (.ofToken t))) := by
  obtain ⟨whole, places, hne, rfl, hw, hp, hzero⟩ := h.exists_chars
  have hnumerals : ∀ c ∈ (if places.isEmpty then whole else whole ++ '.' :: places),
      c.isDigit = true ∨ c = '.' := by
    intro c hc
    split at hc
    · exact Or.inl (hw c hc)
    · rcases List.mem_append.mp hc with hc | hc
      · exact Or.inl (hw c hc)
      · rcases List.mem_cons.mp hc with rfl | hc
        · exact Or.inr rfl
        · exact Or.inl (hp c hc)
  obtain ⟨ts, hitems, hglyphs, hmarks⟩ := exists_numeralTokens hnumerals
  refine ⟨ts, (Numeral.row_ofChars hne hw hp).symm.trans hitems, hmarks, ?_⟩
  have hdecimal : ofDecimal r level
      ⟨false, Decimal.digitsValue (whole ++ places), -(places.length : Int)⟩ =
      .ok (row (ts.map fun t => ofGlyph r level (.ofToken t))) := by
    have hsplit := Decimal.splitAtPoint_digitsValue false (List.forall_mem_append.mpr ⟨hw, hp⟩) hne
      hzero
    simp only [ofDecimal, Decimal.isBelowZero, Decimal.positional, hsplit, Bool.false_and,
      Bool.false_eq_true, if_false]
    rw [hglyphs, ok_bind, List.map_map]
    rfl
  rw [Numeral.number, Numeral.mantissa_ofChars, Numeral.places_ofChars]
  -- a small whole number is stored as a fraction, but drawn as the decimal it is
  by_cases hwhole : (Numeral.ofChars whole places hne).fraction = none ∧
      (Decimal.digitsValue (whole ++ places) : Int) ≤ maxWord
  · obtain rfl := Numeral.fraction_ofChars.mp hwhole.1
    rw [if_pos hwhole, ofNumber, if_pos rfl]
    exact hdecimal
  · rw [if_neg hwhole, ofNumber]
    exact hdecimal

end Block

end Mathpad
