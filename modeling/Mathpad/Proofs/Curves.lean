import Mathpad.Proofs.Answers
import Mathpad.Proofs.Compilation
import Mathpad.Proofs.Doubles
import Mathpad.Proofs.ResultRows

/-!
# Every curve can be drawn

A plot counts lines and columns by scaling doubles, which has no answer for infinite values and for what
is not a number. On the console it never comes to that. Results of evaluation are decimals in range, so
the doubles near them are zero or between `2 ^ -136` and `2 ^ 136` (`Number.IsResult.toDecimal_meets`),
and differences, quotients and products of such doubles stay far from where doubles end. The places at
which a curve is sampled are some hundred fixed doubles, with few enough digits to be taken for numbers.
What is left are arithmetical faults; places that have one are left out.
-/
set_option autoImplicit false

namespace Mathpad

open Binary64

namespace Binary64

open Float.Model
open Float.Model.UnpackedFloat

/-! ## Doubles near decimals -/

/-- The powers of ten that are exact as doubles are of moderate size. -/
theorem isSized_powersOfTen :
    ∀ p ∈ Float.exactlyRepresentablePowersOfTen.toList, IsSized 80 p := by
  decide +kernel

/-- A natural number that a mantissa has room for is of moderate size. -/
theorem isModerate_toFloat {m : Nat} (hm : m < 2 ^ 53) : IsModerate 54 m.toUInt64.toFloat := by
  have hnat : m.toUInt64.toNat = m := by
    simp
    omega
  refine isModerate_ofModel_pack (u := UnpackedFloat.normalize Format.binary64
    (m.toUInt64.toNat : Int) 0 .positive) ?_ (by omega)
  rw [hnat]
  by_cases hzero : m = 0
  · subst hzero
    exact .inl ⟨.positive, rfl⟩
  · have hlog := log2_le_of_lt hm
    refine (sized_normalize (k := 53) .positive (by omega) ?_ ?_ (by omega)).moderate
    · rw [totalExponent]
      omega
    · rw [totalExponent, Int.natAbs_natCast]
      omega

/-- A coefficient below `2 ^ 97`, with an exponent that leaves it there, is at a moderate number. -/
theorem moderate_ofScientific {m : Nat} {e : Int} (hlow : -28 ≤ e) (hsize : m * 10 ^ e.toNat < 2 ^ 97) :
    Moderate 100 (UnpackedFloat.ofScientific Format.binary64 m e) := by
  by_cases hzero : m = 0
  · subst hzero
    exact .inl ⟨.positive, rfl⟩
  have hm : 0 < m := by omega
  -- neither way out of the conversion is taken: the exponent is too close to zero for both
  have hlarge : ¬ e > 2 ^ 11 := by
    intro h
    have hpow : 10 ^ 30 ≤ 10 ^ e.toNat := Nat.pow_le_pow_right (by decide) (by omega)
    have hle : 10 ^ e.toNat ≤ m * 10 ^ e.toNat := Nat.le_mul_of_pos_left _ hm
    omega
  have hsmall : ¬ e < -((2 ^ 11 : Int) + m.log2) := by omega
  unfold UnpackedFloat.ofScientific
  rw [dif_neg hzero, if_neg hlarge, if_neg hsmall]
  by_cases hsign : 0 ≤ e
  · rw [if_pos hsign]
    have hfull : m <<< 53 * 10 ^ e.toNat = (m * 10 ^ e.toNat) <<< 53 := by
      rw [Nat.shiftLeft_eq, Nat.shiftLeft_eq]
      ring
    have hlog := log2_le_of_lt hsize
    have hshift := log2_shiftLeft (m := m * 10 ^ e.toNat) (by positivity) 53
    refine (sized_mul (k := 99) ?_ ?_ ?_ (by omega)).moderate
    all_goals
      simp only [totalExponent, show Format.binary64.mantissaBits = 53 from rfl, hfull, hshift]
      omega
  · rw [if_neg hsign]
    have hexp : e.toNat = 0 := by omega
    rw [hexp, pow_zero, mul_one] at hsize
    have hlog := log2_le_of_lt hsize
    have hten : (10 ^ (-e).toNat).log2 ≤ 93 := by
      have hpow : 10 ^ (-e).toNat ≤ 10 ^ 28 := Nat.pow_le_pow_right (by decide) (by omega)
      exact log2_le_of_lt (hpow.trans_lt (by decide))
    refine (sized_div (k := 98) ?_ ?_ (by omega)).moderate
    all_goals
      simp only [totalExponent]
      omega

/-- A decimal of moderate size is a double of moderate size. -/
theorem isModerate_ofScientific {m : Nat} {e : Int} (hlow : -28 ≤ e)
    (hsize : m * 10 ^ e.toNat < 2 ^ 97) :
    IsModerate 136 (Float.ofScientific m (decide (e < 0)) e.natAbs) := by
  have hexponent : (if decide (e < 0) = true then Int.negOfNat e.natAbs
      else Int.ofNat e.natAbs) = e := by
    by_cases hneg : e < 0
    · rw [if_pos (decide_eq_true hneg), Int.negOfNat_eq]
      show -((e.natAbs : Nat) : Int) = e
      omega
    · rw [if_neg (by simpa using hneg)]
      show ((e.natAbs : Nat) : Int) = e
      omega
  unfold Float.ofScientific
  split
  · next h =>
    -- both the coefficient and the power of ten are doubles
    have hlt : e.natAbs < Float.exactlyRepresentablePowersOfTen.size := by
      simp [Float.exactlyRepresentablePowersOfTen]
      omega
    have hpower := isSized_powersOfTen _ (Array.getElem_mem_toList hlt)
    have hm := isModerate_toFloat h.1
    split
    · exact hm.div hpower (by omega)
    · exact hm.mul hpower.isModerate (by omega)
  · dsimp only
    rw [hexponent]
    have hmodel := moderate_ofScientific hlow hsize
    exact (isModerate_ofModel_pack hmodel (by omega)).mono (by omega)

/-- The double nearest to a decimal in range is moderate. -/
theorem isModerate_ofDecimal {d : Decimal} (hplaces : -(maxPlaces : Int) ≤ d.exponent)
    (hsize : d.digits * 10 ^ d.exponent.toNat < 2 ^ 97) : IsModerate 136 (ofDecimal d) := by
  have hdouble := isModerate_ofScientific hplaces hsize
  unfold ofDecimal
  split
  · exact hdouble.neg (by omega)
  · exact hdouble

end Binary64

/-! ## Scaling -/

namespace Plot

/-- A moderate double has a whole part. -/
theorem exists_wholePart {x : Float} {k : Nat} (h : IsModerate k x) : ∃ n, wholePart x = .ok n := by
  obtain ⟨hnan, hinf⟩ := h.finite
  exact ⟨x.toInt64.toInt, by rw [wholePart, hnan, hinf]; rfl⟩

namespace Range

/-- Both ends of the range are moderate. -/
structure IsModerate (k : Nat) (r : Range) : Prop where
  low : Binary64.IsModerate k r.low
  high : Binary64.IsModerate k r.high

variable {r : Range} {k : Nat}

/-- The length of a range of moderate size is of moderate size, and not zero. -/
theorem IsModerate.length_isSized (h : r.IsModerate k) (hk : k ≤ 900) :
    IsSized (k + 53) r.length := by
  unfold length
  split
  · next hne => exact h.high.sub_isSized h.low hk hne
  · have hone : IsSized 1 (1 : Float) := by decide +kernel
    exact hone.mono (by omega)

/-- A moderate value falls on a line. -/
theorem IsModerate.exists_line (h : r.IsModerate k) {v : Float} (hv : Binary64.IsModerate k v)
    (hk : k ≤ 300) {count : Int} (hcount : Binary64.IsModerate 10 (Float.ofInt (count - 1))) :
    ∃ n, r.line count v = .ok n :=
  exists_wholePart (((hv.sub h.low (by omega)).div (h.length_isSized (by omega)) (by omega)).mul
    hcount (by omega))

/-- The line of zero is found in every range of moderate size. -/
theorem IsModerate.exists_zeroLine (h : r.IsModerate k) (hk : k ≤ 300) {count : Int}
    (hcount : Binary64.IsModerate 10 (Float.ofInt (count - 1))) :
    ∃ n, r.zeroLine count = .ok n := by
  have hzero : Binary64.IsModerate 0 (0 : Float) := by decide +kernel
  unfold zeroLine
  split
  · exact h.exists_line (hzero.mono (Nat.zero_le k)) hk hcount
  · exact ⟨_, rfl⟩

/-- Choosing one of two values again and again ends with one of them. -/
theorem foldl_choose_mem {α : Type} (R : α → α → Prop) [∀ a b, Decidable (R a b)] (x : α)
    (xs : List α) : xs.foldl (fun a b => if R a b then b else a) x ∈ x :: xs := by
  induction xs generalizing x with
  | nil => exact List.mem_singleton_self x
  | cons y ys ih =>
    rw [List.foldl_cons]
    have hmem := ih (if R x y then y else x)
    by_cases hxy : R x y
    · rw [if_pos hxy] at hmem ⊢
      exact List.mem_cons_of_mem x hmem
    · rw [if_neg hxy] at hmem ⊢
      rcases List.mem_cons.mp hmem with hx | hys
      · rw [hx]
        exact List.mem_cons_self
      · exact List.mem_cons_of_mem x (List.mem_cons_of_mem y hys)

/-- Moderate values span a moderate range. -/
theorem spanned_meets {ys : List Float} (hne : ys ≠ []) (h : ∀ y ∈ ys, Binary64.IsModerate k y) :
    Meets (spanned ys) (IsModerate k) fun _ => False := by
  cases ys with
  | nil => exact absurd rfl hne
  | cons y ys =>
    exact ⟨h _ (foldl_choose_mem (fun low v => v < low) y ys),
      h _ (foldl_choose_mem (fun high v => high < v) y ys)⟩

end Range

namespace Grid

/-- Samples of moderate size are drawn, as long as there are any. -/
theorem draw_meets {x : Range} {samples : List Sample} {k : Nat} (hx : x.IsModerate k)
    (hne : samples ≠ []) (hk : k ≤ 300)
    (h : ∀ s ∈ samples, Binary64.IsModerate k s.x ∧ Binary64.IsModerate k s.y) :
    Meets ((ofSize none none).draw x samples) (fun _ => True) fun _ => False := by
  have hrows : Binary64.IsModerate 10 (Float.ofInt ((ofSize none none).rows - 1)) := by
    decide +kernel
  have hcolumns : Binary64.IsModerate 10 (Float.ofInt ((ofSize none none).columns - 1)) := by
    decide +kernel
  have hspanned : Meets (Range.spanned (samples.map (·.y))) (Range.IsModerate k) fun _ => False :=
    Range.spanned_meets (by simpa using hne) (by simpa using fun s hs => (h s hs).2)
  unfold draw
  refine hspanned.bind fun y hy => ?_
  have hcells : ∀ s ∈ samples, Meets ((ofSize none none).cellOf x y s) (fun _ => True)
      fun _ => False := by
    intro s hs
    obtain ⟨column, hcolumn⟩ := hx.exists_line (h s hs).1 hk hcolumns
    obtain ⟨row, hrow⟩ := hy.exists_line (h s hs).2 hk hrows
    rw [cellOf, hcolumn, hrow, ok_bind, ok_bind, if_neg (by decide)]
    trivial
  refine (Meets.mapM hcells).bind fun stars _ => ?_
  obtain ⟨row, hrow⟩ := hy.exists_zeroLine hk hrows
  obtain ⟨column, hcolumn⟩ := hx.exists_zeroLine hk hcolumns
  rw [hrow, hcolumn, ok_bind, ok_bind]
  trivial

end Grid
end Plot

/-! ## Values -/

namespace Number

/-- A result has a decimal, and a double near it that is moderate. -/
theorem IsResult.toDecimal_meets {x : Number} (h : x.IsResult) :
    Meets x.toDecimal (fun d => IsModerate 136 (Binary64.ofDecimal d)) fun _ => False := by
  have hrepresentable : ∀ d : Decimal, d.Representable → IsModerate 136 (Binary64.ofDecimal d) :=
    fun d hd => isModerate_ofDecimal hd.places (lt_of_le_of_lt hd.size (by decide))
  obtain ⟨hstored, hrep⟩ := h
  cases hstored with
  | @ratio q hq =>
    obtain ⟨d, hd⟩ := exists_toDecimal hq
    have hden : (Decimal.ofInt q.den).digits ≠ 0 := by
      show (q.den : Int).natAbs ≠ 0
      have hnz := q.den_nz
      omega
    have hrange := (Decimal.quotient_inRange (Decimal.ofInt q.num) hden).of_ok hd
    rw [hd]
    exact hrepresentable d hrange.representable
  | decimal hv a =>
    rcases hrep with hrep | hlargest
    · exact hrepresentable _ hrep
    · cases hlargest
      exact isModerate_ofDecimal (by decide) (by decide)

end Number

namespace Expr

/-- A number is one that evaluation can give, and a call has the arguments that it needs. -/
def ResultHere : Expr → Prop
  | number x => x.IsResult
  | call f es => es.length = f.arity
  | _ => True

/-- The expression of a text consists of numbers that evaluation can give, and of calls that have
their arguments. -/
theorem ofText_resultHere (s : String) :
    Meets (ofText s) (fun e => e.Everywhere ResultHere) Fault.IsGuarded := by
  have hrow : Meets (Row.ofText s) Row.Typed Fault.IsGuarded :=
    ((Row.ofText_typed s).and (Row.ofText_isInput s)).mono (fun _ h => h.1) fun _ h => .inl h.2
  refine hrow.bind fun row ht => (understood row).mono (fun e he => ?_) ?_
  · refine he.everywhere (fun n hn => ⟨Number.isResult_number hn, Number.isResult_opposite hn⟩) ?_
      (fun e hcomposed => ?_) (fun f args es hitem hlen => hlen.trans hitem) ht.complete
    · exact ⟨Number.minusOne_stored, .inl (Number.representable_ofRat (q := -1) ⟨rfl, rfl⟩)⟩
    · cases e with
      | number | call => exact hcomposed.elim
      | _ => exact trivial
  · rintro _ ⟨k, rfl, -⟩
    exact .inr (.inl ⟨k, rfl⟩)

/-- A variable that is replaced by a result leaves results only. -/
theorem Everywhere.substitute_number {e : Expr} (h : e.Everywhere ResultHere) (name : String)
    {x : Number} (hx : x.IsResult) :
    (substitute name (number x) e).Everywhere ResultHere := by
  induction h with
  | @intro e here inside ih =>
    cases e with
    | number y => exact ⟨here, inside⟩
    | var other =>
      rw [substitute]
      by_cases hname : other = name
      · rw [if_pos hname]
        exact ⟨hx, by simp [operands]⟩
      · rw [if_neg hname]
        exact ⟨trivial, inside⟩
    | sqrt e | parentheses e =>
      rw [substitute]
      exact ⟨trivial, by simpa [operands] using ih⟩
    | power a b | binary op a b =>
      rw [substitute]
      exact ⟨trivial, by simpa [operands] using ih⟩
    | call f es =>
      rw [substitute, substituteAll_eq_map]
      refine ⟨(List.length_map _).trans here, fun u hu => ?_⟩
      obtain ⟨v, hv, rfl⟩ := List.mem_map.mp hu
      exact ih v hv

/-- Such an expression evaluates to a number of that kind, or to a fault of evaluation. -/
theorem Everywhere.eval_isResult {e : Expr} (h : e.Everywhere ResultHere) (settings : EvalSettings) :
    Meets (e.eval settings) Number.IsResult settings.Admits :=
  eval_meets (fun _ hx => hx) (fun _ => Number.InRange.isResult) (fun _ hx => hx.1.lowest)
    (fun _ => .inl) (fun f _ _ here hlen hargs => f.eval_inRange (hlen.trans here) hargs settings) h

end Expr

/-! ## Curves -/

namespace Plot

/-- The places of a plot on the console are moderate and have few digits. -/
theorem console_places :
    ∀ x ∈ Range.places ⟨-10, 10⟩ defaultCount,
      IsModerate 10 x ∧ x.isFinite = true ∧ (toDecimal x).digits < 10 ^ precision := by
  decide +kernel

/-- A place on the axis is a number that evaluation can give. -/
theorem numberAt_isResult {x : Float} (hfinite : x.isFinite = true)
    (hdigits : (toDecimal x).digits < 10 ^ precision) :
    Meets (numberAt x) Number.IsResult Fault.IsMaths := by
  have hround : (toDecimal x).round precision = toDecimal x :=
    Decimal.round_of_digitCount_le (Decimal.digitCount_le (by decide) hdigits)
  have hnumber := Number.ofDecimal_round_inRange (toDecimal x) .exact
  rw [hround] at hnumber
  rw [numberAt, if_pos hfinite]
  exact hnumber.isMaths.imp fun _ => Number.InRange.isResult

/-- Each sample that is left has coordinates of moderate size, and none is at fault. -/
theorem samples_meets {e : Expr} (h : e.Everywhere Expr.ResultHere) (parameter : String)
    {settings : EvalSettings} (hfloats : settings.useFloats = false) :
    Meets (samples (Compiled.ofExpr e (some parameter) settings) ⟨-10, 10⟩ defaultCount)
      (fun samples => ∀ s ∈ samples, IsModerate 136 s.x ∧ IsModerate 136 s.y) fun _ => False := by
  have hplace : ∀ x ∈ Range.places ⟨-10, 10⟩ defaultCount,
      Meets (Sample.at? (Compiled.ofExpr e (some parameter) settings) x)
        (fun s? => ∀ s ∈ s?, IsModerate 136 s.x ∧ IsModerate 136 s.y) fun _ => False := by
    intro x hx
    obtain ⟨hmoderate, hfinite, hdigits⟩ := console_places x hx
    -- what is computed at a place is the expression with the place in it, evaluated
    have hvalue : Meets (numberAt x >>= (Compiled.ofExpr e (some parameter) settings).apply)
        Number.IsResult Fault.IsMaths := by
      refine (numberAt_isResult hfinite hdigits).bind fun v hv => ?_
      have heval := (h.substitute_number parameter hv).eval_isResult settings
      have hcompile := e.compile_eq_eval_given (some parameter) v settings
      rw [Expr.given_some] at hcompile
      rw [← hcompile] at heval
      exact heval.mono (fun _ hy => hy) fun _ hf => hf.isMaths hfloats
    unfold Sample.at?
    cases hend : numberAt x >>= (Compiled.ofExpr e (some parameter) settings).apply with
    | ok y =>
      refine ((hvalue.of_ok hend).toDecimal_meets).bind fun d hd => ?_
      rintro s ⟨⟩
      exact ⟨hmoderate.mono (by omega), hd⟩
    | error f =>
      obtain ⟨k, rfl⟩ := hvalue.of_error hend
      rintro s ⟨⟩
  refine (Meets.mapM hplace).bind fun found hfound => ?_
  rintro s hs
  obtain ⟨s?, hs?, rfl⟩ := List.mem_filterMap.mp hs
  obtain ⟨x, -, hx⟩ := exists_of_forall₂_right hfound hs?
  exact hx s rfl

end Plot

/-- A plot on the console is a drawing, or something is said about why there is none. -/
theorem Calculator.plot_meets {p : Preferences} (hfloats : p.settings.useFloats = false)
    (text parameter : String) :
    Meets (plot p text { parameter }) (fun _ => True) fun _ => False := by
  have hrange : ¬(-10 : Float) ≥ 10 := by decide +kernel
  have hconsole : Plot.Range.IsModerate 136 ⟨-10, 10⟩ := ⟨by decide +kernel, by decide +kernel⟩
  unfold plot
  rw [if_neg Bool.false_ne_true, if_neg hrange]
  refine withExpr_meets (Expr.ofText_resultHere text) (fun e he => ?_) fun _ _ => trivial
  refine (Plot.samples_meets he parameter hfloats).bind fun samples hsamples => ?_
  by_cases hempty : samples.isEmpty = true
  · rw [if_pos hempty]
    trivial
  · rw [if_neg hempty]
    have hne : samples ≠ [] := by simpa using hempty
    exact (Plot.Grid.draw_meets hconsole hne (by omega) hsamples).bind fun _ _ => trivial

end Mathpad
