import Mathlib.Algebra.BigOperators.Ring.List
import Mathlib.Data.Set.List
import Mathpad.Proofs.RationalValues
import Mathpad.Proofs.Termination

/-!
# Reducing a closed term

Reducing a closed term gives the number it stands for. It may overflow on the way, and it
divides by zero only if the term has no value. No like members are ever merged: by the time
the rule for a sum or a product looks for them, all that is left are numbers.
-/
set_option autoImplicit false

namespace Mathpad.Term

/-- The reduced term is the number that the term stands for. -/
def GivesValue (t : Term) (r : Reduced) : Prop :=
  ∃ q, t.value? = some q ∧ r.term = number (.ofRat q)

/-- A division by zero, for want of a value. -/
def NoValue (value : Option ℚ) (f : Fault) : Prop :=
  f = .maths .divisionByZero ∧ value = none

/-- The faults with which the reduction of a term of this value may end: an overflow, or a
division by zero if the value is missing. -/
def Stopped (value : Option ℚ) (f : Fault) : Prop := f.IsOverflow ∨ NoValue value f

/-- What gives the value or stops divides by zero just if the value is missing, unless it
overflows. -/
theorem divisionByZero_iff {α : Type} {o : Outcome α} {value : Option ℚ} {P : α → ℚ → Prop}
    (ho : Meets o (fun a => ∃ q, value = some q ∧ P a q) (Stopped value))
    (hne : o ≠ .error (.maths .overflow)) :
    o = .error (.maths .divisionByZero) ↔ value = none := by
  cases o with
  | ok a =>
    obtain ⟨q, rfl, -⟩ := ho
    simp
  | error e =>
    rcases ho with hover | ⟨rfl, hnone⟩
    · rw [hover] at hne
      exact absurd rfl hne
    · simp [hnone]

/-- The same where a refusal to go on has not been ruled out yet. -/
def StoppedOrEndless (value : Option ℚ) (f : Fault) : Prop :=
  f = .mishap .endless ∨ Stopped value f

theorem stoppedOrEndless {value : Option ℚ} {f : Fault} (h : f.IsOverflow) :
    StoppedOrEndless value f := Or.inr (Or.inl h)

/-- The reductions that are asked for give the values of closed terms. -/
def ReducesClosed (f : Term → Outcome Reduced) : Prop :=
  ∀ u, u.IsClosed → Meets (f u) (GivesValue u) (StoppedOrEndless u.value?)

variable {f : Term → Outcome Reduced}

/-- A fault of a part is a fault of the whole, which has no value if a part has none. -/
theorem Stopped.of_part {part whole : Option ℚ} (h : part = none → whole = none) {e : Fault}
    (he : Stopped part e) : Stopped whole e :=
  he.imp_right fun hzero => ⟨hzero.1, h hzero.2⟩

/-- What stops the reduction of a part stops that of the whole, if the whole has no value without
the part. -/
theorem StoppedOrEndless.of_part {part whole : Option ℚ} (h : part = none → whole = none)
    {e : Fault} (he : StoppedOrEndless part e) : StoppedOrEndless whole e :=
  he.imp_right (Stopped.of_part h)

/-! ## Sums and products -/

/-- The members of a sum or a product after reduction: numbers, with the value of the whole. -/
theorem reduceMembers_closed (hf : ReducesClosed f) (op : Operation) {ts : List Term}
    (hts : ∀ t ∈ ts, t.IsClosed) :
    Meets (reduceMembers f op ts)
      (fun out => ∃ qs : List ℚ, out.1 = qs.map (fun q => number (.ofRat q)) ∧
        (op.apply ts).value? = some (op.fold qs))
      (StoppedOrEndless (op.apply ts).value?) := by
  have hpart : ∀ t ∈ ts, t.value? = none → (op.apply ts).value? = none := by
    intro t ht hnone
    rw [value?_apply]
    exact op.total?_of_mem_none (List.mem_map.mpr ⟨t, ht, hnone⟩)
  refine (reduceMembers_meets op (P := IsClosed) (Q := GivesValue)
    (fun t u ht hu => (order_closed ht hu).mono (fun _ h => h) fun _ => stoppedOrEndless)
    hts fun t ht => ?_).imp fun out hout => ?_
  · refine (hf t (hts t ht)).mono (fun r hr => ⟨hr, fun u hu => ?_⟩) fun e he =>
      he.of_part (hpart t ht)
    obtain ⟨q, -, hr⟩ := hr
    exact isClosed_lift (by rw [hr]; exact ⟨q, rfl⟩) hu
  · obtain ⟨sorted, rs, hred⟩ := hout
    -- every reduced member is a number, so there is nothing to lift
    have hmem : ∀ u ∈ out.1, ∃ q : ℚ, number (.ofRat q) = u := by
      intro u hu
      obtain ⟨r, hr, hu⟩ := List.mem_flatMap.mp (hred.members_perm.subset hu)
      obtain ⟨t, -, q, -, hq⟩ := exists_of_forall₂_right hred.reduced hr
      rw [hq] at hu
      refine ⟨q, ?_⟩
      cases op <;> exact (List.mem_singleton.mp hu).symm
    obtain ⟨qs, hqs⟩ : out.1 ∈ Set.range (List.map fun q : ℚ => number (.ofRat q)) := by
      rw [Set.range_list_map]
      exact hmem
    have hvalues : op.total? ((rs.flatMap fun r => op.lift r.term).map value?)
        = op.total? (sorted.map value?) := by
      have hreduced := hred.reduced
      clear hred
      induction hreduced with
      | nil => rfl
      | cons hr _ ih =>
        obtain ⟨q, hq, hr⟩ := hr
        rw [List.flatMap_cons, List.map_append, Operation.total?_append, ih, total?_lift, hr,
          value?_ofRat, List.map_cons, Operation.total?_cons, hq]
    refine ⟨qs, hqs.symm, ?_⟩
    rw [value?_apply, ← op.total?_perm (hred.sorted_perm.map value?), ← hvalues,
      ← op.total?_perm (hred.members_perm.map value?), ← hqs, List.map_map, ← op.total?_some]
    exact congrArg op.total? (List.map_congr_left fun q _ => value?_ofRat q)

/-- Fractions are combined exactly, or they overflow. -/
theorem combine_ofRat (op : Operation) (p q : ℚ) :
    Meets (op.combine (.ofRat p) (.ofRat q)) (fun x => x = .ofRat (op.act p q))
      Fault.IsOverflow := by
  cases op with
  | product => exact (Number.mul_ofRat p q).imp fun x hx => hx.1
  | sum => exact (Number.add_ofRat p q).imp fun x hx => hx.1

/-- Fractions are combined exactly, one after the other. -/
theorem total_closed (op : Operation) (p : ℚ) (qs : List ℚ) :
    Meets ((qs.map Number.ofRat).foldlM op.combine (.ofRat p))
      (fun total => total = .ofRat (op.act p (op.fold qs))) Fault.IsOverflow := by
  induction qs generalizing p with
  | nil =>
    rw [op.fold_nil, op.act_unit_right]
    exact rfl
  | cons q qs ih =>
    rw [List.map_cons, List.foldlM_cons]
    refine (combine_ofRat op p q).bind fun x hx => ?_
    rw [hx, op.fold_cons, ← op.act_assoc]
    exact ih (op.act p q)

theorem neutral_eq_ofRat (op : Operation) : op.neutral = .ofRat op.unit := by
  cases op <;> rfl

/-- A zero makes a product zero. -/
theorem fold_of_absorbs_ofRat {op : Operation} {qs : List ℚ}
    (h : (qs.map Number.ofRat).any op.absorbs = true) : op.fold qs = 0 := by
  obtain ⟨x, hx, habs⟩ := List.any_eq_true.mp h
  obtain ⟨q, hq, rfl⟩ := List.mem_map.mp hx
  cases op with
  | product =>
    refine List.prod_eq_zero ?_
    rw [← (Number.isZero_ofRat q).mp habs]
    exact hq
  | sum => cases habs

/-- Fractions alone are merged into their combined value, of which nothing is left if it is neutral.
-/
theorem mergeNumbers_closed (op : Operation) (qs : List ℚ) :
    Meets (mergeNumbers op (qs.map Number.ofRat) true)
      (fun out => out.1 = [] ∧ op.fold qs = op.unit ∨ out.1 = [.ofRat (op.fold qs)])
      Fault.IsOverflow := by
  unfold mergeNumbers
  cases qs with
  | nil => exact Or.inl ⟨rfl, op.fold_nil⟩
  | cons q qs =>
    rw [if_neg (by simp), neutral_eq_ofRat]
    refine (total_closed op op.unit (q :: qs)).bind fun total htotal => ?_
    rw [op.act_unit] at htotal
    rw [if_neg (by simp)]
    cases qs with
    | nil =>
      refine Or.inr ?_
      rw [op.fold_cons, op.fold_nil, op.act_unit_right]
      rfl
    | cons q' qs =>
      rw [if_pos (by simp), htotal]
      exact Or.inr rfl

/-- One step of reducing an operation gives its value. -/
theorem reduceOperation_closed (hf : ReducesClosed f) (op : Operation) {ts : List Term}
    (hts : ∀ t ∈ ts, t.IsClosed) :
    Meets (reduceOperation f op ts) (GivesValue (op.apply ts))
      (StoppedOrEndless (op.apply ts).value?) := by
  refine reduceOperation_meets (M := fun members _ => ∃ qs : List ℚ,
      members = qs.map (fun q => number (.ofRat q)) ∧ (op.apply ts).value? = some (op.fold qs))
    (reduceMembers_closed hf op hts) (fun numbers rest _ hmembers hlead hzero => ?_)
    fun numbers rest changed hmembers hlead _ => ?_
  all_goals
    obtain ⟨qs, hqs, hvalue⟩ := hmembers
    have hnumbers : (qs.map fun q => number (.ofRat q)) = (qs.map Number.ofRat).map number := by
      rw [List.map_map]
      rfl
    rw [hqs, hnumbers, leadingNumbers_map] at hlead
    obtain ⟨rfl, rfl⟩ := Prod.mk.inj hlead
  · refine ⟨0, ?_, rfl⟩
    rw [hvalue, fold_of_absorbs_ofRat hzero]
  · refine (mergeNumbers_closed op qs).mono (fun merged hmerged => ?_) fun _ => stoppedOrEndless
    -- there is nothing behind the numbers
    have hnone : mergeLike f op [] = .ok none := by cases op <;> rfl
    rw [hnone]
    refine ⟨fun combined hc => absurd hc (by simp), fun _ => ⟨op.fold qs, hvalue, ?_⟩⟩
    rcases hmerged with ⟨hnil, hunit⟩ | hone
    · rw [hnil, hunit, ← neutral_eq_ofRat]
      rfl
    · rw [hone]
      rfl

/-! ## Powers -/

/-- A whole power of a fraction, which is missing where zero is inverted. -/
theorem powInt_stops (p : ℚ) (n : Int) :
    Meets ((Number.ofRat p).powInt n)
      (fun x => ∃ q, power? (some p) (some (n : ℚ)) = some q ∧ x = .ofRat q)
      (Stopped (power? (some p) (some (n : ℚ)))) := by
  by_cases hdefined : 0 ≤ n ∨ p ≠ 0
  · rw [power?_intCast hdefined]
    exact (Number.powInt_ofRat hdefined).mono (fun x hx => ⟨_, rfl, hx.1⟩) fun e he => Or.inl he
  · -- zero to a negative power
    have hneg : n < 0 := by omega
    obtain rfl : p = 0 := by
      by_contra hp
      exact hdefined (Or.inr hp)
    rw [power?_zero hneg, Number.powInt_zero hneg]
    exact Or.inr ⟨rfl, rfl⟩

/-- One step of reducing a power of numbers gives its value, and there is one. -/
theorem reducePower_closed (f : Term → Outcome Reduced) (p : ℚ) (n : Int) (changed : Bool) :
    Meets (reducePower f (number (.ofRat p)) (number (.ofRat n)) changed)
      (fun r => ∃ q, power? (some p) (some n) = some q ∧ r.term = number (.ofRat q))
      (StoppedOrEndless (power? (some p) (some n))) := by
  have hexp : Number.ofRat n = .ratio n 1 := (Number.ratio_one_eq_ofRat n).symm
  have hsplit : splitExponent? (number (.ofRat n)) = none := by simp [hexp, splitExponent?]
  have hwhole : wholeExponent? (number (.ofRat n)) = .ok (some n) := Number.whole?_ofRat n
  refine reducePower_meets (fun m d hparts => ?_) fun _ => ?_
  · rw [hsplit] at hparts
    cases hparts
  rw [hwhole, meets_ok]
  refine ⟨fun hone => ?_, fun hzero => ?_, fun _ _ => ?_⟩
  · obtain rfl := Option.some.inj hone
    exact ⟨p, by rw [power?_intCast (Or.inl (by omega)), zpow_one], rfl⟩
  · obtain rfl := Option.some.inj hzero
    exact ⟨1, by rw [power?_intCast (Or.inl (le_refl _)), zpow_zero], rfl⟩
  · rw [combinePower, numberPower?]
    have hpow := powInt_stops p n
    cases hx : (Number.ofRat p).powInt n with
    | ok x =>
      obtain ⟨q, hq, rfl⟩ := hpow.of_ok hx
      exact ⟨q, hq, rfl⟩
    | error e => exact Or.inr (hpow.of_error hx)

/-! ## All closed terms -/

/-- One step of reduction gives the value of a closed term, if the reductions that it asks for do.
-/
theorem reduceStep_closed (hf : ReducesClosed f) {t : Term} (ht : t.IsClosed) :
    Meets (reduceStep f t) (GivesValue t) (StoppedOrEndless t.value?) := by
  cases t with
  | number x =>
    obtain ⟨q, rfl⟩ := ht
    exact ⟨q, value?_ofRat q, rfl⟩
  | var name => exact absurd ht (by simp [IsClosed])
  | product ts => exact reduceOperation_closed hf .product (areClosed_iff.mp ht)
  | sum ts => exact reduceOperation_closed hf .sum (areClosed_iff.mp ht)
  | power b e =>
    obtain ⟨hb, he, n, hn⟩ := ht
    have hvalue : (power b e).value? = power? b.value? (some n) := by rw [← hn]; rfl
    rw [reduceStep, hvalue]
    -- a base without value leaves the power without one, and the exponent has a value
    refine ((hf b hb).mono (fun _ h => h) fun x hx => hx.of_part fun hnone => ?_).bind
      fun rb hrb => ?_
    · rw [hnone]
      rfl
    refine ((hf e he).mono (fun _ h => h) fun x hx => hx.of_part fun hnone => ?_).bind
      fun re hre => ?_
    · rw [hn] at hnone
      cases hnone
    obtain ⟨p, hp, hrb⟩ := hrb
    obtain ⟨q, hq, hre⟩ := hre
    obtain rfl : q = n := Option.some.inj (hq.symm.trans hn)
    rw [hrb, hre, hp]
    unfold GivesValue
    rw [hvalue, hp]
    exact reducePower_closed f p n _
  | call c ts => exact absurd ht (by simp [IsClosed])

/-- Reducing a closed term gives the number it stands for, or overflows, or divides by zero
for want of a value. -/
theorem reduce_closed {t : Term} (ht : t.IsClosed) :
    Meets t.reduce (GivesValue t) (Stopped t.value?) :=
  reduce_induction (D := IsClosed) (E := fun t => Stopped t.value?)
    (fun _ hf _ ht => reduceStep_closed
      (fun u hu => (hf u hu).mono (fun _ h => h.2) fun _ h => h) ht) t ht

end Mathpad.Term
