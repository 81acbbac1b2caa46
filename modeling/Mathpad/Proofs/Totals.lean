import Mathlib.Data.Int.GCD
import Mathpad.Proofs.Rounding
import Mathpad.Proofs.Rules

/-!
# Totals of numbers

Once the numbers of a sum or a product have been combined into one, combining that one
with the neutral number again shows nothing new: it does not fail, and it is neutral
just if it was before.
-/
set_option autoImplicit false

namespace Mathpad

namespace Number

/-! ## Fractions -/

/-- Dividing two numbers by what they have in common leaves nothing in common. -/
theorem max_gcd_div (m k : Int) :
    max 1 (Int.gcd (m / max 1 (Int.gcd m k : Int)) (k / max 1 (Int.gcd m k : Int)) : Int)
      = 1 := by
  by_cases hzero : Int.gcd m k = 0
  · obtain ⟨rfl, rfl⟩ := Int.gcd_eq_zero_iff.mp hzero
    rfl
  · have hpos : 0 < Int.gcd m k := Nat.pos_of_ne_zero hzero
    have hmax : max 1 (Int.gcd m k : Int) = Int.gcd m k := max_eq_right (by omega)
    rw [hmax, Int.gcd_ediv_gcd_ediv_gcd hpos]
    rfl

/-- A fraction in lowest terms is one already. -/
theorem simplify_of_simplify {n d : Int} {x : Number} (h : simplify (.ratio n d) = .ok x) :
    ∃ p q, x = .ratio p q ∧ simplify (.ratio p q) = .ok (.ratio p q) := by
  obtain ⟨m, hm⟩ : ∃ m, m = if d < 0 then -n else n := ⟨_, rfl⟩
  obtain ⟨k, hk⟩ : ∃ k, k = if d < 0 then -d else d := ⟨_, rfl⟩
  have hknonneg : 0 ≤ k := by
    rw [hk]
    split <;> omega
  simp only [simplify, ← hm, ← hk] at h
  obtain ⟨p, hp, h⟩ := Outcome.bind_eq_ok.mp h
  obtain ⟨q, hq, h⟩ := Outcome.bind_eq_ok.mp h
  obtain ⟨hp, hpword⟩ := (word_meets _).of_ok hp
  obtain ⟨hq, hqword⟩ := (word_meets _).of_ok hq
  refine ⟨p, q, (Except.ok.inj h).symm, ?_⟩
  have hqnonneg : ¬q < 0 := by
    rw [hq]
    exact not_lt.mpr (Int.ediv_nonneg hknonneg (le_trans (by omega) (le_max_left 1 _)))
  have hgcd : max 1 (Int.gcd p q : Int) = 1 := by
    rw [hp, hq]
    exact max_gcd_div m k
  -- both parts were checked when they were made
  have hword : ∀ {n : Int}, isWord n = true → word n = .ok n := fun hn => if_pos hn
  simp only [simplify, if_neg hqnonneg, hgcd, Int.ediv_one]
  rw [hword (hp ▸ hpword), hword (hq ▸ hqword)]
  rfl

/-! ## Combined numbers -/

/-- What becomes of two numbers: a fraction in lowest terms, or a decimal in range. -/
def IsTotal : Number → Prop
  | .ratio n d => simplify (.ratio n d) = .ok (.ratio n d)
  | .decimal v _ => v.InRange

/-- What an operation gives that rounds its decimals and fits them is left alone by doing so again.
-/
theorem combine_isTotal {ratios : Int → Int → Int → Int → Number}
    {decimals : Decimal → Decimal → Decimal} {x y z : Number}
    (hratios : ∀ a b c d, ∃ n k, ratios a b c d = .ratio n k)
    (h : combine ratios (fun v w => ((decimals v w).round precision).fit) x y = .ok z) :
    z.IsTotal := by
  -- a decimal on either side makes the computation one of decimals
  have hdecimal : ∀ {o o' : Outcome Decimal} {a : Accuracy}, (do
      let v ← o
      let w ← o'
      return Number.decimal (← ((decimals v w).round precision).fit) a) = .ok z → z.IsTotal := by
    intro o o' a h
    obtain ⟨v, -, h⟩ := Outcome.bind_eq_ok.mp h
    obtain ⟨w, -, h⟩ := Outcome.bind_eq_ok.mp h
    obtain ⟨u, hu, h⟩ := Outcome.bind_eq_ok.mp h
    rw [← Except.ok.inj h]
    exact Decimal.inRange_of_fit hu
  cases x with
  | ratio a b =>
    cases y with
    | ratio c d =>
      obtain ⟨n, k, hr⟩ := hratios a b c d
      rw [combine, hr] at h
      obtain ⟨p, q, rfl, hpq⟩ := simplify_of_simplify h
      exact hpq
    | decimal w b => exact hdecimal h
  | decimal v a => exact hdecimal h

end Number

namespace Operation

/-- Sums and products are left alone by rounding and fitting them again. -/
theorem isTotal_of_combine (op : Operation) {x y z : Number} (h : op.combine x y = .ok z) :
    z.IsTotal := by
  cases op with
  | product => exact Number.combine_isTotal (fun a b c d => ⟨_, _, rfl⟩) h
  | sum => exact Number.combine_isTotal (fun a b c d => ⟨_, _, rfl⟩) h

/-- Combining a total with the neutral number gives a number that is neutral just if the
total is. -/
theorem combine_neutral (op : Operation) {x : Number} (h : x.IsTotal) :
    ∃ y, op.combine op.neutral x = .ok y ∧ op.isNeutral y = op.isNeutral x := by
  cases x with
  | ratio n d =>
    refine ⟨.ratio n d, ?_, rfl⟩
    cases op with
    | product =>
      change Number.simplify (.ratio (1 * n) (1 * d)) = _
      rw [one_mul, one_mul]
      exact h
    | sum =>
      change Number.simplify (.ratio (0 * d + n * 1) (1 * d)) = _
      rw [zero_mul, zero_add, mul_one, one_mul]
      exact h
  | decimal v a =>
    -- times one is the same digits again, but plus zero may move the exponent
    have hv : v.InRange := h
    cases op with
    | product =>
      refine ⟨.decimal v (Accuracy.exact.combine a), ?_, rfl⟩
      change (do
        let u ← (Number.ratio 1 1).toDecimal
        return Number.decimal (← ((u.mul v).round precision).fit) _) = _
      rw [Number.toDecimal_word (by decide), ok_bind, Decimal.mul_ofInt_one,
        Decimal.round_fit_of_inRange hv]
      rfl
    | sum =>
      obtain ⟨w, hw, hzero⟩ := Decimal.zero_add_inRange hv
      refine ⟨.decimal w (Accuracy.exact.combine a), ?_, hzero⟩
      change (do
        let u ← (Number.ratio 0 1).toDecimal
        return Number.decimal (← ((u.add v).round precision).fit) _) = _
      rw [Number.toDecimal_word (by decide), ok_bind, hw]
      rfl

end Operation

namespace Term

/-- The total of two numbers or more comes out of combining two numbers. -/
theorem isTotal_of_foldlM (op : Operation) {numbers : List Number} (hlong : numbers ≠ [])
    {start total : Number} (h : numbers.foldlM op.combine start = .ok total) :
    total.IsTotal := by
  induction numbers generalizing start with
  | nil => exact absurd rfl hlong
  | cons x xs ih =>
    rw [List.foldlM_cons] at h
    obtain ⟨y, hy, h⟩ := Outcome.bind_eq_ok.mp h
    -- only the last combination matters
    by_cases hnil : xs = []
    · subst hnil
      rw [← Except.ok.inj h]
      exact op.isTotal_of_combine hy
    · exact ih hnil h

/-- What merging numbers does, by the three ways in which it can end. -/
theorem mergeNumbers_cases {op : Operation} {numbers merged : List Number} {alone any : Bool}
    (h : mergeNumbers op numbers alone = .ok (merged, any)) :
    (merged = [] ∧ (any = false → numbers = [])) ∨
      (∃ total, total.IsTotal ∧ (op.isNeutral total && !alone) = false ∧ merged = [total] ∧
        any = true) ∨
      (merged = numbers ∧ any = false) := by
  unfold mergeNumbers at h
  by_cases hempty : numbers.isEmpty = true
  · rw [if_pos hempty] at h
    obtain ⟨hmerged, -⟩ := Prod.mk.inj (Except.ok.inj h)
    exact Or.inl ⟨hmerged.symm, fun _ => List.isEmpty_iff.mp hempty⟩
  · rw [if_neg hempty] at h
    obtain ⟨total, htotal, h⟩ := Outcome.bind_eq_ok.mp h
    by_cases hneutral : (op.isNeutral total && !alone) = true
    · rw [if_pos hneutral] at h
      obtain ⟨hmerged, hany⟩ := Prod.mk.inj (Except.ok.inj h)
      exact Or.inl ⟨hmerged.symm, fun hfalse => absurd (hany.trans hfalse) (by simp)⟩
    · rw [if_neg hneutral] at h
      by_cases hlong : 1 < numbers.length
      · rw [if_pos hlong] at h
        obtain ⟨hmerged, hany⟩ := Prod.mk.inj (Except.ok.inj h)
        have hne : numbers ≠ [] := fun hnil => hempty (by rw [hnil]; rfl)
        exact Or.inr (Or.inl ⟨total, isTotal_of_foldlM op hne htotal,
          Bool.eq_false_iff.mpr hneutral, hmerged.symm, hany.symm⟩)
      · rw [if_neg hlong] at h
        obtain ⟨hmerged, hany⟩ := Prod.mk.inj (Except.ok.inj h)
        exact Or.inr (Or.inr ⟨hmerged.symm, hany.symm⟩)

/-- Merging numbers that were merged already does nothing. -/
theorem mergeNumbers_merged {op : Operation} {numbers merged : List Number} {alone any : Bool}
    (h : mergeNumbers op numbers alone = .ok (merged, any)) :
    mergeNumbers op merged alone = .ok (merged, false) := by
  rcases mergeNumbers_cases h with ⟨rfl, -⟩ | ⟨total, htotal, hneutral, rfl, -⟩ | ⟨rfl, rfl⟩
  · rfl
  · obtain ⟨y, hy, hsame⟩ := op.combine_neutral htotal
    unfold mergeNumbers
    rw [if_neg (by simp), List.foldlM_cons, hy, ok_bind, List.foldlM_nil, pure_bind, hsame,
      hneutral]
    rfl
  · exact h

/-- Merging that does nothing leaves the numbers as they were. -/
theorem mergeNumbers_still {op : Operation} {numbers merged : List Number} {alone : Bool}
    (h : mergeNumbers op numbers alone = .ok (merged, false)) : merged = numbers := by
  rcases mergeNumbers_cases h with ⟨rfl, hnil⟩ | ⟨_, _, _, _, htrue⟩ | ⟨rfl, -⟩
  · exact (hnil rfl).symm
  · cases htrue
  · rfl

end Term
end Mathpad
