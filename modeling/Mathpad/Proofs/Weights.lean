import Mathlib.Algebra.BigOperators.Group.List.Basic
import Mathlib.Algebra.Order.BigOperators.Group.List
import Mathlib.Data.Nat.Basic
import Mathlib.Tactic.Linarith
import Mathpad.Proofs.Rules

/-!
# Depths and weights

How the two parts of the measure behave when terms are put together, and the relations
between weights on which the termination of reduction rests. `Compact` is the part of
being reduced that these relations need: no sum or product of numbers only, and no
exponent that is still to be split.
-/
set_option autoImplicit false

namespace Mathpad.Term

/-! ## Lists -/

/-- What some terms weigh together is the sum of their weights. -/
theorem weightAll_eq_sum (ts : List Term) : weightAll ts = (ts.map weight).sum := by
  induction ts with
  | nil => rfl
  | cons t ts ih => rw [weightAll, ih, List.map_cons, List.sum_cons]

@[simp] theorem weightAll_nil : weightAll [] = 0 := rfl

@[simp] theorem weightAll_cons (t : Term) (ts : List Term) :
    weightAll (t :: ts) = t.weight + weightAll ts := rfl

@[simp] theorem weightAll_append (ts us : List Term) :
    weightAll (ts ++ us) = weightAll ts + weightAll us := by
  simp [weightAll_eq_sum]

/-- The weight of some terms does not depend on their order. -/
theorem weightAll_perm {ts us : List Term} (h : ts.Perm us) : weightAll ts = weightAll us := by
  rw [weightAll_eq_sum, weightAll_eq_sum]
  exact (h.map weight).sum_eq

/-- Fewer terms weigh no more. -/
theorem weightAll_subperm {ts us : List Term} (h : ts.Subperm us) :
    weightAll ts ≤ weightAll us := by
  obtain ⟨vs, hperm, hsub⟩ := h
  rw [← weightAll_perm hperm, weightAll_eq_sum, weightAll_eq_sum]
  exact (hsub.map weight).sum_le_sum fun _ _ => Nat.zero_le _

theorem weight_le_weightAll {t : Term} {ts : List Term} (h : t ∈ ts) : t.weight ≤ weightAll ts := by
  have hsub : [t].Subperm ts := List.singleton_subperm_iff.mpr h
  simpa using weightAll_subperm hsub

/-- Terms are no deeper than a bound if none of them is. -/
theorem depthAll_le_iff {ts : List Term} {n : Nat} :
    depthAll ts ≤ n ↔ ∀ t ∈ ts, t.depth ≤ n := by
  induction ts with
  | nil => simp [depthAll]
  | cons t ts ih => simp [depthAll, ih]

theorem depth_le_depthAll {t : Term} {ts : List Term} (h : t ∈ ts) : t.depth ≤ depthAll ts :=
  depthAll_le_iff.mp (Nat.le_refl _) t h

/-! ## Numbers -/

theorem depth_of_isNumber {t : Term} (h : t.isNumber = true) : t.depth = 0 := by
  obtain ⟨x, rfl⟩ := isNumber_iff.mp h
  rfl

/-! ## Sums and products -/

theorem depth_apply (op : Operation) (ts : List Term) :
    (op.apply ts).depth = if ts.all isNumber then 0 else max 1 (depthAll ts) := by
  cases op <;> rfl

/-- An operation on terms that are no deeper than a bound is no deeper, unless the bound is zero and
there is something besides numbers. -/
theorem depth_apply_le (op : Operation) {ts : List Term} {n : Nat}
    (h : ∀ t ∈ ts, t.depth ≤ n) (hn : ts.all isNumber = true ∨ 1 ≤ n) :
    (op.apply ts).depth ≤ n := by
  rw [depth_apply]
  by_cases hall : ts.all isNumber = true
  · rw [if_pos hall]
    exact Nat.zero_le n
  · rw [if_neg hall]
    have hone : 1 ≤ n := hn.resolve_left hall
    exact max_le hone (depthAll_le_iff.mpr h)

theorem depth_le_apply (op : Operation) {ts : List Term} {t : Term} (h : t ∈ ts) :
    t.depth ≤ (op.apply ts).depth := by
  rw [depth_apply]
  by_cases hall : ts.all isNumber = true
  · rw [depth_of_isNumber (List.all_eq_true.mp hall t h)]
    exact Nat.zero_le _
  · rw [if_neg hall]
    exact le_trans (depth_le_depthAll h) (le_max_right 1 _)

theorem weightAll_lt_apply (op : Operation) (ts : List Term) :
    weightAll ts < (op.apply ts).weight := by
  cases op with
  | product =>
    change weightAll ts < max 20 (weightAll ts + 4)
    omega
  | sum =>
    change weightAll ts < weightAll ts + 25
    omega

theorem weight_apply_le (op : Operation) {ts us : List Term} (h : weightAll ts ≤ weightAll us) :
    (op.apply ts).weight ≤ (op.apply us).weight := by
  cases op with
  | product =>
    change max 20 (weightAll ts + 4) ≤ max 20 (weightAll us + 4)
    omega
  | sum =>
    change weightAll ts + 25 ≤ weightAll us + 25
    omega

/-- The weight of an operation grows strictly with that of its members, once these weigh as much as
a number. -/
theorem weight_apply_lt {op : Operation} {ts us : List Term} (h : weightAll ts < weightAll us)
    (hus : 20 ≤ weightAll us) : (op.apply ts).weight < (op.apply us).weight := by
  cases op with
  | product =>
    change max 20 (weightAll ts + 4) < max 20 (weightAll us + 4)
    omega
  | sum =>
    change weightAll ts + 25 < weightAll us + 25
    omega

theorem twenty_le_apply (op : Operation) (ts : List Term) : 20 ≤ (op.apply ts).weight := by
  cases op with
  | product => exact le_max_left 20 _
  | sum =>
    change 20 ≤ weightAll ts + 25
    omega

/-- Lifting the members of a member adds no weight. -/
theorem weightAll_lift_le (op : Operation) (t : Term) : weightAll (op.lift t) ≤ t.weight := by
  rcases op.lift_cases t with h | ⟨ts, rfl, h⟩
  · rw [h, weightAll_cons, weightAll_nil]
    omega
  · rw [h]
    exact le_of_lt (weightAll_lt_apply op ts)

theorem depth_lift_le {op : Operation} {t u : Term} (hu : u ∈ op.lift t) : u.depth ≤ t.depth := by
  rcases Operation.mem_lift hu with rfl | ⟨ts, rfl, hmem⟩
  · exact le_refl _
  · exact depth_le_apply op hmem

/-! ## Powers -/

/-- An exponent that makes a light power: a number that is not to be split. -/
def IsPlain (e : Term) : Prop := e.isNumber = true ∧ e.splitExponent? = none

theorem powerWeight_of_isPlain {e : Term} (h : e.IsPlain) (n : Nat) :
    powerWeight e n = n + n / 4 := if_pos h

theorem powerWeight_of_not_isPlain {e : Term} (h : ¬e.IsPlain) (n : Nat) :
    powerWeight e n = 2 * n - 1 := if_neg h

theorem powerWeight_lt (e : Term) {n : Nat} (hn : 2 ≤ n) : powerWeight e n < 2 * n := by
  by_cases he : e.IsPlain
  · rw [powerWeight_of_isPlain he]
    omega
  · rw [powerWeight_of_not_isPlain he]
    omega

/-- A power outweighs its base by five at least, as no base is lighter than a number. -/
theorem powerWeight_gt (e : Term) {n : Nat} (hn : 20 ≤ n) : n + 5 ≤ powerWeight e n := by
  by_cases he : e.IsPlain
  · rw [powerWeight_of_isPlain he]
    omega
  · rw [powerWeight_of_not_isPlain he]
    omega

theorem powerWeight_mono (e : Term) {m n : Nat} (h : m ≤ n) :
    powerWeight e m ≤ powerWeight e n := by
  by_cases he : e.IsPlain
  · rw [powerWeight_of_isPlain he, powerWeight_of_isPlain he]
    omega
  · rw [powerWeight_of_not_isPlain he, powerWeight_of_not_isPlain he]
    omega

/-- A number that is not to be split makes the lightest power of a base. -/
theorem powerWeight_plain_le {e : Term} (he : e.IsPlain) (e' : Term) {n : Nat} (hn : 2 ≤ n) :
    powerWeight e n ≤ powerWeight e' n := by
  by_cases he' : e'.IsPlain
  · rw [powerWeight_of_isPlain he, powerWeight_of_isPlain he']
  · rw [powerWeight_of_isPlain he, powerWeight_of_not_isPlain he']
    omega

theorem depth_power (b e : Term) :
    (power b e).depth = max b.depth (if e.isNumber then 1 else max 1 e.depth + 1) := rfl

theorem weight_power (b e : Term) : (power b e).weight = powerWeight e b.weight := rfl

/-! ## Least weights -/

/-- Nothing is lighter than a number. -/
theorem twenty_le_weight (t : Term) : 20 ≤ t.weight := by
  induction t using operation_induction with
  | number x => exact le_refl 20
  | var name =>
    change 20 ≤ 25
    omega
  | operation op ts _ => exact twenty_le_apply op ts
  | power b e ihb _ =>
    rw [weight_power]
    have hgt := powerWeight_gt e ihb
    omega
  | call f ts _ =>
    change 20 ≤ weightAll ts + 25
    omega

/-- No term is lighter than a number, so some terms together are not. -/
theorem twenty_le_weightAll {ts : List Term} (h : ts ≠ []) : 20 ≤ weightAll ts := by
  obtain ⟨t, ht⟩ := List.exists_mem_of_ne_nil ts h
  exact le_trans (twenty_le_weight t) (weight_le_weightAll ht)

/-! ## Compact terms -/

mutual

/-- No sum or product in the term has numbers only, and no exponent is still to be split. -/
def Compact : Term → Prop
  | number _ => True
  | var _ => True
  | product ts => ts.all isNumber = false ∧ CompactAll ts
  | power b e => splitExponent? e = none ∧ Compact b
  | sum ts => ts.all isNumber = false ∧ CompactAll ts
  | call _ ts => CompactAll ts

/-- All of these terms are compact. -/
def CompactAll : List Term → Prop
  | [] => True
  | t :: ts => Compact t ∧ CompactAll ts

end

/-- Some terms are compact if and only if each of them is. -/
theorem compactAll_iff {ts : List Term} : CompactAll ts ↔ ∀ t ∈ ts, Compact t := by
  induction ts with
  | nil => simp [CompactAll]
  | cons t ts ih => simp [CompactAll, ih]

theorem compact_apply {op : Operation} {ts : List Term} :
    Compact (op.apply ts) ↔ ts.all isNumber = false ∧ ∀ t ∈ ts, Compact t := by
  cases op <;> simp [Operation.apply, Compact, compactAll_iff]

/-- What a compact term is spliced in as is compact. -/
theorem compact_lift {op : Operation} {t u : Term} (ht : Compact t) (hu : u ∈ op.lift t) :
    Compact u := by
  rcases Operation.mem_lift hu with rfl | ⟨ts, rfl, hmem⟩
  · exact ht
  · exact (compact_apply.mp ht).2 u hmem

/-- A compact term without depth is a number. -/
theorem Compact.isNumber_of_depth {t : Term} (h : Compact t) (hd : t.depth = 0) :
    t.isNumber = true := by
  cases t with
  | number x => rfl
  | var name => simp [depth] at hd
  | product ts =>
    have hne : ts.all isNumber ≠ true := by simp [h.1]
    rw [depth, if_neg hne] at hd
    omega
  | power b e =>
    rw [depth_power] at hd
    by_cases he : e.isNumber = true
    · rw [if_pos he] at hd
      omega
    · rw [if_neg he] at hd
      omega
  | sum ts =>
    have hne : ts.all isNumber ≠ true := by simp [h.1]
    rw [depth, if_neg hne] at hd
    omega
  | call f ts =>
    rw [depth] at hd
    omega

/-- A compact term that is no number has some depth. -/
theorem Compact.one_le_depth {t : Term} (h : Compact t) (hn : t.isNumber = false) :
    1 ≤ t.depth := by
  by_contra hlt
  have hd : t.depth = 0 := by omega
  rw [h.isNumber_of_depth hd] at hn
  cases hn

/-- Numbers are the only compact terms below weight twenty-five. -/
theorem Compact.weight_ge {t : Term} (h : Compact t) (hn : t.isNumber = false) :
    25 ≤ t.weight := by
  induction t using parts_induction with
  | number x => cases hn
  | var name => exact le_refl 25
  | product ts ih =>
    obtain ⟨hall, hts⟩ := h
    -- a member that is no number weighs enough by itself
    obtain ⟨t, ht, hnt⟩ : ∃ t ∈ ts, t.isNumber = false := by simpa using hall
    have hge := ih t ht (compactAll_iff.mp hts t ht) hnt
    have hle := weight_le_weightAll ht
    change 25 ≤ max 20 (weightAll ts + 4)
    omega
  | power b e _ _ =>
    rw [weight_power]
    have hge := powerWeight_gt e (twenty_le_weight b)
    have hb := twenty_le_weight b
    omega
  | sum ts _ =>
    change 25 ≤ weightAll ts + 25
    omega
  | call f ts _ =>
    change 25 ≤ weightAll ts + 25
    omega

/-! ## Terms that compare equal -/

theorem Tied.isNumber_eq {t u : Term} (h : Tied t u) : t.isNumber = u.isNumber := by
  have hrank := h.rank_eq
  cases t <;> cases u <;> simp_all [rank, isNumber, number?]

/-- Compact terms that compare equal have the same weight. Their numbers may differ, as
`1/3` and its decimal do, and for that reason exponents must not be split. -/
theorem Tied.weight_eq {t u : Term} (h : Tied t u) (ht : Compact t) (hu : Compact u) :
    t.weight = u.weight := by
  have hall : ∀ ts us : List Term,
      (∀ t ∈ ts, ∀ u, Tied t u → Compact t → Compact u → t.weight = u.weight) →
      List.Forall₂ Tied ts us → CompactAll ts → CompactAll us → weightAll ts = weightAll us := by
    intro ts us ih htied hts hus
    induction htied with
    | nil => rfl
    | cons hhead _ ihtail =>
      rw [weightAll_cons, weightAll_cons, ih _ (by simp) _ hhead hts.1 hus.1,
        ihtail (fun t ht => ih t (by simp [ht])) hts.2 hus.2]
  induction t using parts_induction generalizing u with
  | number x =>
    cases h.tieCases with
    | number => rfl
  | var name =>
    cases h.tieCases with
    | var => rfl
  | product ts ih =>
    cases h.tieCases with
    | product htied =>
      have hw := hall _ _ (fun t ht u h => ih t ht h) htied ht.2 hu.2
      rw [weight, weight, hw]
  | power b e ihb _ =>
    cases h.tieCases with
    | @power _ _ b' e' hb he =>
      have hw := ihb hb ht.2 hu.2
      -- the exponents may be different numbers, but neither of them is to be split
      have hplain : e.IsPlain ↔ e'.IsPlain := by
        unfold IsPlain
        rw [he.isNumber_eq, ht.1, hu.1]
      rw [weight_power, weight_power, hw]
      by_cases hp : e.IsPlain
      · rw [powerWeight_of_isPlain hp, powerWeight_of_isPlain (hplain.mp hp)]
      · rw [powerWeight_of_not_isPlain hp,
          powerWeight_of_not_isPlain fun hp' => hp (hplain.mpr hp')]
  | sum ts ih =>
    cases h.tieCases with
    | sum htied =>
      have hw := hall _ _ (fun t ht u h => ih t ht h) htied ht.2 hu.2
      rw [weight, weight, hw]
  | call f ts ih =>
    cases h.tieCases with
    | call _ htied =>
      have hw := hall _ _ (fun t ht u h => ih t ht h) htied ht hu
      rw [weight, weight, hw]

end Mathpad.Term
