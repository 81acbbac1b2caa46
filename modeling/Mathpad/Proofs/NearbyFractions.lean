import Mathlib.Algebra.Order.Floor.Semifield
import Mathpad.Number.Nearby
import Mathpad.Proofs.ApproximatePowers
import Mathpad.Proofs.Subtraction

/-!
# The simplest fraction nearby

The walk toward the fractional part of a decimal goes down between two neighbours of the tree, one
not above what is allowed and the other not below it. No fraction between neighbours has a
denominator less than the sum of theirs (`Brackets.le_den`), so the first fraction that is near
enough has the least denominator of all that are (`walkTree_simplest`). And since the fractional part
is a fraction itself, the denominators cannot outgrow its own, and the walk ends.

All of this is about exact numbers. The search works with decimals of limited precision, and what is
said here is true of it as long as none of its operations has to round (`searchOperations`).
-/
set_option autoImplicit false

namespace Mathpad

/-! ## Neighbours -/

/-- Two neighbours in the tree with all between them that lies between `low` and `high`. -/
structure Brackets (low high : ℚ) (left right : TreeNode) : Prop where
  neighbours : right.num * left.den = left.num * right.den + 1
  left_pos : 0 < left.den
  right_pos : 0 < right.den
  left_le : left.num ≤ low * left.den
  le_right : high * right.den ≤ right.num

namespace Brackets

variable {low high : ℚ} {left right : TreeNode}

theorem between_pos (h : Brackets low high left right) : 0 < (left.between right).den :=
  Nat.add_pos_left h.left_pos _

/-- Of all fractions between two neighbours, the one that the tree has there has the least
denominator. -/
theorem le_den (h : Brackets low high left right) {n : ℤ} {m : ℕ} (hlow : low * m < n)
    (hhigh : n < high * m) : (left.between right).den ≤ m := by
  have hleft : (left.num : ℤ) * m < n * left.den := by
    have hpos : (0 : ℚ) < left.den := by exact_mod_cast h.left_pos
    have hm : (0 : ℚ) ≤ m := Nat.cast_nonneg m
    have hlt : (left.num : ℚ) * m < n * left.den := by
      nlinarith [mul_le_mul_of_nonneg_right h.left_le hm, mul_lt_mul_of_pos_right hlow hpos]
    exact_mod_cast hlt
  have hright : n * right.den < (right.num : ℤ) * m := by
    have hpos : (0 : ℚ) < right.den := by exact_mod_cast h.right_pos
    have hm : (0 : ℚ) ≤ m := Nat.cast_nonneg m
    have hlt : (n : ℚ) * right.den < right.num * m := by
      nlinarith [mul_le_mul_of_nonneg_right h.le_right hm, mul_lt_mul_of_pos_right hhigh hpos]
    exact_mod_cast hlt
  have hdet : (right.num : ℤ) * left.den = left.num * right.den + 1 := by
    exact_mod_cast h.neighbours
  -- the two differences, each at least one, multiplied by the denominators across
  have hacross : (left.den : ℤ) + right.den ≤ m := by
    calc (left.den : ℤ) + right.den
        ≤ left.den * (right.num * m - n * right.den) +
          right.den * (n * left.den - left.num * m) := by
          exact add_le_add (le_mul_of_one_le_right (Int.natCast_nonneg _) (by omega))
            (le_mul_of_one_le_right (Int.natCast_nonneg _) (by omega))
      _ = (right.num * left.den - left.num * right.den) * m := by ring
      _ = m := by rw [hdet]; ring
  exact_mod_cast hacross

/-- The walk goes left when the fraction in the middle is too large. -/
theorem goLeft (h : Brackets low high left right)
    (habove : high * (left.between right).den < (left.between right).num) :
    Brackets low high left (left.between right) where
  neighbours := by
    have hdet := h.neighbours
    simp only [TreeNode.between]
    nlinarith
  left_pos := h.left_pos
  right_pos := h.between_pos
  left_le := h.left_le
  le_right := habove.le

/-- The walk goes right when it is too small. -/
theorem goRight (h : Brackets low high left right)
    (hbelow : (left.between right).num < low * (left.between right).den) :
    Brackets low high (left.between right) right where
  neighbours := by
    have hdet := h.neighbours
    simp only [TreeNode.between]
    nlinarith
  left_pos := h.between_pos
  right_pos := h.right_pos
  left_le := hbelow.le
  le_right := h.le_right

end Brackets

/-! ## Simplest fractions -/

/-- No fraction with a denominator up to `m` is strictly within `e` of `x`. -/
def NoneWithin (x e : ℚ) (m : Int) : Prop :=
  ∀ (n : ℤ) (k : ℕ), 0 < k → (k : ℤ) ≤ m → e ≤ |x - n / k|

/-- `p / q` is within `e` of `x`, and no fraction with a smaller denominator is so strictly. Whole
numbers are not subject to the limit. -/
structure SimplestWithin (x e : ℚ) (limit : Option Int) (p q : Int) : Prop where
  pos : 0 < q
  near : |x - p / q| ≤ e
  limited : q = 1 ∨ ∀ m ∈ limit, q ≤ m
  simplest : NoneWithin x e (q - 1)

/-- What it is to be within a distance of a fraction, multiplied out. -/
theorem abs_sub_div_lt_iff {x e : ℚ} {n : ℤ} {k : ℕ} (hk : 0 < k) :
    |x - n / k| < e ↔ (x - e) * k < n ∧ n < (x + e) * k := by
  have hpos : (0 : ℚ) < k := by exact_mod_cast hk
  rw [abs_sub_lt_iff, sub_lt_comm, lt_div_iff₀ hpos, sub_lt_iff_lt_add', div_lt_iff₀ hpos]

/-- What it is to be at most at a distance from a fraction, multiplied out. -/
theorem abs_sub_div_le_iff {x e : ℚ} {n : ℤ} {k : ℕ} (hk : 0 < k) :
    |x - n / k| ≤ e ↔ (x - e) * k ≤ n ∧ n ≤ (x + e) * k := by
  have hpos : (0 : ℚ) < k := by exact_mod_cast hk
  rw [abs_sub_le_iff, sub_le_comm, le_div_iff₀ hpos, sub_le_iff_le_add', div_le_iff₀ hpos]

theorem NoneWithin.mono {x e : ℚ} {m m' : Int} (h : NoneWithin x e m) (hle : m' ≤ m) :
    NoneWithin x e m' :=
  fun n k hk hm => h n k hk (hm.trans hle)

/-- A number is as far from a fraction as its fractional part is from another fraction with the same
denominator. -/
theorem abs_signed_sub {s : ℤ} (hs : |s| = 1) (w : ℤ) (x : ℚ) (n : ℤ) {k : ℤ} (hk : 0 < k) :
    |s * (w + x) - n / k| = |x - (s * n - w * k : ℤ) / k| := by
  have hk' : (k : ℚ) ≠ 0 := by exact_mod_cast hk.ne'
  have hone : |(s : ℚ)| = 1 := by exact_mod_cast hs
  have hsquare : (s : ℚ) * s = 1 := by rw [← abs_mul_abs_self, hone, one_mul]
  calc |s * (w + x) - n / k| = |(s : ℚ)| * |s * (w + x) - n / k| := by rw [hone, one_mul]
    _ = |s * s * (w + x) - s * n / k| := by rw [← abs_mul]; ring_nf
    _ = |x - (s * n - w * k : ℤ) / k| := by
      rw [hsquare, one_mul]
      push_cast
      field_simp
      ring_nf

/-- Moving by a whole number and reflecting keep the fractions away. -/
theorem NoneWithin.signed {s : ℤ} (hs : |s| = 1) (w : ℤ) {x e : ℚ} {m : Int}
    (h : NoneWithin x e m) : NoneWithin (s * (w + x)) e m := by
  intro n k hk hm
  have hmoved := abs_signed_sub hs w x n (k := k) (by omega)
  rw [Int.cast_natCast] at hmoved
  exact hmoved ▸ h (s * n - w * k) k hk hm

/-- Moving by a whole number and reflecting keep the simplest fraction the simplest. -/
theorem SimplestWithin.signed {s : ℤ} (hs : |s| = 1) (w : ℤ) {x e : ℚ} {limit : Option Int}
    {p q : Int} (h : SimplestWithin x e limit p q) :
    SimplestWithin (s * (w + x)) e limit (s * (w * q + p)) q where
  pos := h.pos
  near := by
    have hsquare : s * s = 1 := by rw [← abs_mul_abs_self, hs, one_mul]
    have hnum : s * (s * (w * q + p)) - w * q = p := by
      rw [← mul_assoc, hsquare, one_mul, add_sub_cancel_left]
    rw [abs_signed_sub hs w x _ h.pos, hnum]
    exact h.near
  limited := h.limited
  simplest := h.simplest.signed hs w

/-- A whole number that is near enough is the simplest fraction. -/
theorem SimplestWithin.whole {x e : ℚ} (limit : Option Int) {p : Int} (h : |x - p| ≤ e) :
    SimplestWithin x e limit p 1 where
  pos := one_pos
  near := by rwa [Int.cast_one, div_one]
  limited := .inl rfl
  simplest := fun _ _ hk hm => by omega

/-! ## Operations without rounding -/

namespace Decimal

/-- Rounding to the precision leaves the value alone. -/
def IsExact (d : Decimal) : Prop := (d.round precision).value = d.value

instance (d : Decimal) : Decidable d.IsExact :=
  decidable_of_iff ((d.round precision).sameValue d = true) (sameValue_iff _ _)

/-- An exact multiple of a decimal has the multiple of its value. -/
theorem value_times {k : Nat} {d : Decimal} (h : ((ofNat k).mul d).IsExact) :
    (times k d).value = d.value * k := by
  rw [times, h, value_mul, value_ofNat, mul_comm]

end Decimal

/-- The exact results of the operations on decimals that a walk performs. -/
def walkOperations (limit : Option Int) (part error : Decimal) :
    Nat → TreeNode → TreeNode → List Decimal
  | 0, _, _ => []
  | fuel + 1, left, right =>
    let middle := left.between right
    let low := (part.sub error).round precision
    let high := (part.add error).round precision
    if limit.any (fun m => decide (m < (middle.den : Int))) then []
    else part.add error :: (Decimal.ofNat middle.den).mul high ::
      if (high.times middle.den).lt (Decimal.ofNat middle.num) then
        walkOperations limit part error fuel left middle
      else part.sub error :: (Decimal.ofNat middle.den).mul low ::
        if (Decimal.ofNat middle.num).lt (low.times middle.den) then
          walkOperations limit part error fuel middle right
        else []

section Walk

variable {limit : Option Int} {part error low high : Decimal} {fuel : Nat}
  {left right middle : TreeNode}

/-- What one step of a walk can do that does not round. -/
theorem walkTree_step (hlow : (part.sub error).round precision = low)
    (hhigh : (part.add error).round precision = high) (hmiddle : left.between right = middle)
    (hexact : ∀ o ∈ walkOperations limit part error (fuel + 1) left right, o.IsExact) :
    (∃ m ∈ limit, m < (middle.den : Int) ∧
      walkTree limit low high (fuel + 1) left right = none) ∨
    ((part.value + error.value) * middle.den < middle.num ∧
      walkTree limit low high (fuel + 1) left right = walkTree limit low high fuel left middle ∧
      ∀ o ∈ walkOperations limit part error fuel left middle, o.IsExact) ∨
    (middle.num < (part.value - error.value) * middle.den ∧
      walkTree limit low high (fuel + 1) left right = walkTree limit low high fuel middle right ∧
      ∀ o ∈ walkOperations limit part error fuel middle right, o.IsExact) ∨
    ((∀ m ∈ limit, (middle.den : Int) ≤ m) ∧
      (part.value - error.value) * middle.den ≤ middle.num ∧
      middle.num ≤ (part.value + error.value) * middle.den ∧
      walkTree limit low high (fuel + 1) left right = some middle) := by
  rw [walkTree]
  rw [walkOperations] at hexact
  simp only [hmiddle, hlow, hhigh] at hexact ⊢
  by_cases hlimit : limit.any (fun m => decide (m < (middle.den : Int))) = true
  · rw [if_pos hlimit]
    obtain ⟨m, hm, hless⟩ := (Option.any_eq_true _ _).mp hlimit
    exact .inl ⟨m, hm, of_decide_eq_true hless, rfl⟩
  refine .inr ?_
  rw [if_neg hlimit] at hexact ⊢
  obtain ⟨hadd, htimes, hrest⟩ := by simpa only [List.forall_mem_cons] using hexact
  -- a comparison of decimals that were not rounded is one of their values
  have habove := Decimal.lt_iff_value_lt (high.times middle.den) (Decimal.ofNat middle.num)
  rw [Decimal.value_times htimes, ← hhigh, hadd, Decimal.value_add, Decimal.value_ofNat,
    hhigh] at habove
  by_cases hlarge : (high.times middle.den).lt (Decimal.ofNat middle.num) = true
  · rw [if_pos hlarge] at hrest ⊢
    exact .inl ⟨habove.mp hlarge, rfl, hrest⟩
  refine .inr ?_
  rw [if_neg hlarge] at hrest ⊢
  obtain ⟨hsub, htimes', hrest⟩ := by simpa only [List.forall_mem_cons] using hrest
  have hbelow := Decimal.lt_iff_value_lt (Decimal.ofNat middle.num) (low.times middle.den)
  rw [Decimal.value_times htimes', ← hlow, hsub, Decimal.value_sub, Decimal.value_ofNat,
    hlow] at hbelow
  by_cases hsmall : (Decimal.ofNat middle.num).lt (low.times middle.den) = true
  · rw [if_pos hsmall] at hrest ⊢
    exact .inl ⟨hbelow.mp hsmall, rfl, hrest⟩
  rw [if_neg hsmall]
  refine .inr ⟨fun m hm => ?_, not_lt.mp (mt hbelow.mpr hsmall), not_lt.mp (mt habove.mpr hlarge),
    rfl⟩
  by_contra hmore
  exact hlimit ((Option.any_eq_true _ _).mpr ⟨m, hm, decide_eq_true (not_le.mp hmore)⟩)

/-- What a whole walk promises that does not round. `D` is the denominator of the fraction that the
walk is toward, which is not passed by. -/
theorem walkTree_simplest (hlow : (part.sub error).round precision = low)
    (hhigh : (part.add error).round precision = high) {N : ℤ} {D : ℕ} (hD : 0 < D)
    (hpart : part.value * D = N) (herror : 0 < error.value)
    (hfuel : D < left.den + right.den + fuel)
    (h : Brackets (part.value - error.value) (part.value + error.value) left right)
    (hexact : ∀ o ∈ walkOperations limit part error fuel left right, o.IsExact) :
    match walkTree limit low high fuel left right with
    | some node => SimplestWithin part.value error.value limit node.num node.den
    | none => ∃ m ∈ limit, NoneWithin part.value error.value m := by
  induction fuel generalizing left right with
  | zero =>
    -- the fractional part itself lies between the neighbours
    have hDpos : (0 : ℚ) < D := by exact_mod_cast hD
    have hle := h.le_den (n := N) (m := D) (by nlinarith) (by nlinarith)
    simp only [TreeNode.between] at hle
    omega
  | succ fuel ih =>
    obtain ⟨middle, hmiddle⟩ : ∃ middle, left.between right = middle := ⟨_, rfl⟩
    have hden : middle.den = left.den + right.den := by rw [← hmiddle, TreeNode.between]
    have hleft := h.left_pos
    have hright := h.right_pos
    -- whatever the step does, nothing with a smaller denominator than the middle is near
    have hbest : NoneWithin part.value error.value (middle.den - 1) := by
      intro n k hk hless
      by_contra hnear
      have hbetween := (abs_sub_div_lt_iff hk).mp (not_le.mp hnear)
      have hle := h.le_den hbetween.1 hbetween.2
      rw [hmiddle] at hle
      omega
    rcases walkTree_step hlow hhigh hmiddle hexact with ⟨m, hm, hless, hwalk⟩ |
      ⟨habove, hwalk, hrest⟩ | ⟨hbelow, hwalk, hrest⟩ | ⟨hlimit, hge, hle, hwalk⟩ <;> rw [hwalk]
    · exact ⟨m, hm, hbest.mono (Int.le_sub_one_of_lt hless)⟩
    · exact ih (by omega) (hmiddle ▸ h.goLeft (hmiddle.symm ▸ habove)) hrest
    · exact ih (by omega) (hmiddle ▸ h.goRight (hmiddle.symm ▸ hbelow)) hrest
    · have hpos : 0 < middle.den := by omega
      have hnear := (abs_sub_div_le_iff hpos).mpr ⟨hge, hle⟩
      exact ⟨by exact_mod_cast hpos, by exact_mod_cast hnear, .inr hlimit, hbest⟩

end Walk

/-! ## The search -/

namespace Decimal

/-- The exact results of the operations on decimals before the fractional part is known. -/
def splitOperations (d tolerance : Decimal) : List Decimal :=
  let size := d.magnitude precision
  { d with negative := false } ::
    (if size.digits = 0 then [] else [size.mul tolerance]) ++ [size.sub (ofNat size.wholePart.1)]

/-- The exact results of the operations on decimals that the search for a fraction performs. -/
def searchOperations (d tolerance : Decimal) (limit : Option Int) : List Decimal :=
  let (_, part, error) := d.splitForSearch tolerance
  d.splitOperations tolerance ++
    if part.lt error then []
    else one.sub error ::
      if ((one.sub error).round precision).lt part then []
      else walkOperations limit part error (10 ^ (-part.exponent).toNat + 1) ⟨0, 1⟩ ⟨1, 1⟩

/-- How far the fraction shown for a decimal may be from it. The tolerance is relative to the value,
and absolute when that is zero. -/
def allowance (d tolerance : Decimal) : ℚ :=
  if d.value = 0 then tolerance.value else |d.value| * tolerance.value

/-- The whole part of a decimal is the floor of its magnitude. -/
theorem wholePart_eq_floor (d : Decimal) : d.wholePart.1 = ⌊|d.value|⌋₊ := by
  rw [wholePart, abs_value]
  by_cases hexp : 0 ≤ d.exponent
  · obtain ⟨k, hk⟩ : ∃ k : ℕ, d.exponent = k := ⟨d.exponent.toNat, by omega⟩
    rw [if_pos hexp, hk, Int.toNat_natCast, zpow_natCast]
    exact_mod_cast (Nat.floor_natCast (R := ℚ) (d.digits * 10 ^ k)).symm
  · obtain ⟨k, hk⟩ : ∃ k : ℕ, d.exponent = -(k : ℤ) := ⟨(-d.exponent).toNat, by omega⟩
    rw [if_neg hexp, hk, neg_neg, Int.toNat_natCast, zpow_neg, zpow_natCast, ← div_eq_mul_inv]
    exact_mod_cast (Nat.floor_div_eq_div (K := ℚ) d.digits (10 ^ k)).symm

/-- What a search starts from, if the operations before it do not round. -/
structure IsSplit (d tolerance : Decimal) (whole : Nat) (part error : Decimal) : Prop where
  value : |d.value| = whole + part.value
  nonneg : 0 ≤ part.value
  lt_one : part.value < 1
  error : error.value = d.allowance tolerance

/-- Where nothing is rounded, a search starts from the whole part, the fractional part and the
allowance. -/
theorem splitForSearch_isSplit {d tolerance part error : Decimal} {whole : Nat}
    (hsplit : d.splitForSearch tolerance = (whole, part, error))
    (hexact : ∀ o ∈ d.splitOperations tolerance, o.IsExact) :
    IsSplit d tolerance whole part error := by
  obtain ⟨size, hsize⟩ : ∃ size, size = d.magnitude precision := ⟨_, rfl⟩
  simp only [splitForSearch, Prod.mk.injEq, ← hsize] at hsplit
  obtain ⟨rfl, rfl, rfl⟩ := hsplit
  simp only [splitOperations, ← hsize, List.cons_append, List.forall_mem_cons,
    List.forall_mem_append, List.mem_singleton, forall_eq] at hexact
  -- no operation rounds, so each result has the value that it should have
  obtain ⟨hmagnitude, herror, hpart⟩ := hexact
  have hvalue : size.value = |d.value| := by
    rw [hsize, magnitude, hmagnitude, abs_value, value_eq]
    simp
  have hwhole : size.wholePart.1 = ⌊|d.value|⌋₊ := by rw [wholePart_eq_floor, hvalue, abs_abs]
  have hrest : ((size.sub (ofNat size.wholePart.1)).round precision).value =
      |d.value| - ⌊|d.value|⌋₊ := by
    rw [hpart, value_sub, value_ofNat, hwhole, hvalue]
  have hzero : size.digits = 0 ↔ d.value = 0 := by
    rw [← abs_eq_zero, ← hvalue, ← isZero_iff, isZero, beq_iff_eq]
  have hlow := Nat.floor_le (abs_nonneg d.value)
  have hhigh := Nat.lt_floor_add_one |d.value|
  refine ⟨?_, ?_, ?_, ?_⟩
  · rw [hrest, hwhole, add_sub_cancel]
  · rw [hrest]
    exact sub_nonneg.mpr hlow
  · rw [hrest]
    exact sub_lt_iff_lt_add'.mpr hhigh
  · by_cases hdigits : size.digits = 0
    · rw [if_pos hdigits, allowance, if_pos (hzero.mp hdigits)]
    · rw [if_neg hdigits] at herror
      have hproduct := herror _ (List.mem_singleton_self _)
      rw [if_neg hdigits, allowance, if_neg (mt hzero.mpr hdigits), hproduct, value_mul, hvalue]

section Search

variable {d tolerance part error : Decimal} {whole : Nat} {limit : Option Int}

theorem allowance_pos (h : 0 < tolerance.value) : 0 < d.allowance tolerance := by
  unfold allowance
  split
  · exact h
  · next hvalue => exact mul_pos (abs_pos.mpr hvalue) h

/-- The value is put together from its sign, the whole part and the fractional part. -/
theorem IsSplit.value_eq (h : IsSplit d tolerance whole part error) {sign : ℤ}
    (hsign : sign = if d.isBelowZero then -1 else 1) :
    d.value = sign * ((whole : ℤ) + part.value) := by
  rw [d.value_eq_sign_mul_abs, h.value, hsign]
  push_cast
  rfl

theorem IsSplit.near_zero (h : IsSplit d tolerance whole part error)
    (hlow : part.lt error = true) : |part.value - (0 : ℤ)| ≤ error.value := by
  rw [Int.cast_zero, sub_zero, abs_of_nonneg h.nonneg]
  exact ((lt_iff_value_lt _ _).mp hlow).le

/-- A fractional part that is larger than one less the allowance is near one. -/
theorem IsSplit.near_one (h : IsSplit d tolerance whole part error)
    (hexact : (one.sub error).IsExact)
    (hhigh : ((one.sub error).round precision).lt part = true) :
    |part.value - (1 : ℤ)| ≤ error.value := by
  rw [lt_iff_value_lt, hexact, value_sub, value_one] at hhigh
  rw [Int.cast_one, abs_of_neg (sub_neg.mpr h.lt_one)]
  linarith

/-- Zero and one are the first two neighbours if neither of them is near the fractional part. -/
theorem brackets_of_inside (hexact : (one.sub error).IsExact) (hlow : ¬part.lt error = true)
    (hhigh : ¬((one.sub error).round precision).lt part = true) :
    Brackets (part.value - error.value) (part.value + error.value) ⟨0, 1⟩ ⟨1, 1⟩ := by
  rw [lt_iff_value_lt, not_lt] at hlow hhigh
  rw [hexact, value_sub, value_one] at hhigh
  refine ⟨rfl, one_pos, one_pos, ?_, ?_⟩
  · simpa using hlow
  · simpa using le_sub_iff_add_le.mp hhigh

/-- A decimal that is not negative is a fraction over a power of ten. -/
theorem value_mul_pow (h : 0 ≤ part.value) :
    part.value * (10 ^ (-part.exponent).toNat : ℕ) =
      ((part.digits * 10 ^ part.exponent.toNat : ℕ) : ℤ) := by
  rw [Int.cast_natCast, ← abs_value_mul_pow, abs_of_nonneg h]

/-- The fraction that is found for a decimal is the simplest one near it. None is found only if there
is none up to the limit, so without a limit there always is one. -/
theorem nearbyFraction_simplest (htolerance : 0 < tolerance.value)
    (hexact : ∀ o ∈ d.searchOperations tolerance limit, o.IsExact) :
    (∃ p q, d.nearbyFraction tolerance limit = some (.ratio p q) ∧
      SimplestWithin d.value (d.allowance tolerance) limit p q) ∨
    ∃ m, limit = some m ∧ d.nearbyFraction tolerance limit = none ∧
      NoneWithin d.value (d.allowance tolerance) m := by
  obtain ⟨whole, part, error, hsplit⟩ :
      ∃ whole part error, d.splitForSearch tolerance = (whole, part, error) := ⟨_, _, _, rfl⟩
  obtain ⟨sign, hsign⟩ : ∃ sign : ℤ, sign = if d.isBelowZero then -1 else 1 := ⟨_, rfl⟩
  have habs : |sign| = 1 := by rw [hsign]; split <;> rfl
  rw [searchOperations] at hexact
  simp only [hsplit, List.forall_mem_append] at hexact
  obtain ⟨hbefore, hrest⟩ := hexact
  have hstart := splitForSearch_isSplit hsplit hbefore
  -- the simplest fraction near the fractional part is moved by the whole part and the sign
  rw [nearbyFraction, hstart.value_eq hsign, ← hstart.error]
  simp only [hsplit, ← hsign]
  by_cases hlow : part.lt error = true
  · have hresult := (SimplestWithin.whole limit (hstart.near_zero hlow)).signed habs whole
    rw [mul_one, add_zero] at hresult
    rw [if_pos hlow]
    exact .inl ⟨_, _, rfl, hresult⟩
  rw [if_neg hlow] at hrest ⊢
  rw [List.forall_mem_cons] at hrest
  obtain ⟨hone, hrest⟩ := hrest
  by_cases hhigh : ((one.sub error).round precision).lt part = true
  · have hresult := (SimplestWithin.whole limit (hstart.near_one hone hhigh)).signed habs whole
    rw [mul_one] at hresult
    rw [if_pos hhigh]
    exact .inl ⟨_, _, rfl, hresult⟩
  rw [if_neg hhigh] at hrest ⊢
  have hwalk := walkTree_simplest rfl rfl (by positivity) (value_mul_pow hstart.nonneg)
    (hstart.error ▸ allowance_pos htolerance) (by simp only; omega)
    (brackets_of_inside hone hlow hhigh) hrest
  split at hwalk
  · next node hnode =>
    rw [hnode]
    exact .inl ⟨_, _, rfl, hwalk.signed habs whole⟩
  · next hnode =>
    obtain ⟨m, hm, hnone⟩ := hwalk
    rw [hnode]
    exact .inr ⟨m, hm, rfl, hnone.signed habs whole⟩

end Search

/-- The simplest fraction near `-2.3333333333` is `-7/3`, and near `0.4142135` there is none with a
denominator up to four. -/
theorem nearbyFraction_simplest_thirds :
    (0 < defaultTolerance.value ∧
      (∀ o ∈ searchOperations ⟨true, 23333333333, -10⟩ defaultTolerance none, o.IsExact) ∧
      nearbyFraction ⟨true, 23333333333, -10⟩ defaultTolerance none = some (.ratio (-7) 3) ∧
      SimplestWithin (value ⟨true, 23333333333, -10⟩)
        (allowance ⟨true, 23333333333, -10⟩ defaultTolerance) none (-7) 3) ∧
    ((∀ o ∈ searchOperations ⟨false, 4142135, -7⟩ defaultTolerance (some 4), o.IsExact) ∧
      nearbyFraction ⟨false, 4142135, -7⟩ defaultTolerance (some 4) = none ∧
      NoneWithin (value ⟨false, 4142135, -7⟩)
        (allowance ⟨false, 4142135, -7⟩ defaultTolerance) 4) := by
  have hpos : 0 < defaultTolerance.value := by norm_num [defaultTolerance, value_eq]
  have hexact : ∀ o ∈ searchOperations ⟨true, 23333333333, -10⟩ defaultTolerance none,
      o.IsExact := by decide +kernel
  have hfound : nearbyFraction ⟨true, 23333333333, -10⟩ defaultTolerance none =
      some (.ratio (-7) 3) := by decide +kernel
  have hexact' : ∀ o ∈ searchOperations ⟨false, 4142135, -7⟩ defaultTolerance (some 4),
      o.IsExact := by decide +kernel
  have hnone : nearbyFraction ⟨false, 4142135, -7⟩ defaultTolerance (some 4) = none := by
    decide +kernel
  refine ⟨⟨hpos, hexact, hfound, ?_⟩, hexact', hnone, ?_⟩
  · rcases nearbyFraction_simplest hpos hexact with ⟨p, q, hresult, hsimplest⟩ | ⟨m, hm, -⟩
    · rw [hfound, Option.some_inj, Number.ratio.injEq] at hresult
      obtain ⟨rfl, rfl⟩ := hresult
      exact hsimplest
    · cases hm
  · rcases nearbyFraction_simplest hpos hexact' with ⟨p, q, hresult, -⟩ | ⟨m, hm, -, hfar⟩
    · rw [hnone] at hresult
      cases hresult
    · obtain rfl := Option.some_inj.mp hm
      exact hfar

end Decimal

end Mathpad
