import Mathpad.Proofs.Exactness
import Mathpad.Proofs.ZeroFactors

/-!
# The normal form

In normal form the members of each sum and each product are in order and of another kind, with
at most one number among them, in front; no two of them are alike, so that there is nothing
left to collect; and each power has a base and an exponent that no rule for powers is made
for. None of this mentions the rules. Reduction of a sorted term brings it into normal form,
as long as its numbers are fractions in lowest terms whose parts are words.
-/
set_option autoImplicit false

namespace Mathpad

/-- What two alike members have in common: factors their base, where a factor that is no power is
the first power of itself, and summands what they are multiples of. -/
def Operation.likeness : Operation → Term → Term
  | product, t => (Term.Factor.ofTerm t).base
  | sum, t => (Term.Multiple.ofTerm t).term

namespace Term

/-! ## Terms in normal form -/

/-- The members of a sum or a product in normal form. -/
structure NormalMembers (op : Operation) (ts : List Term) : Prop where
  two_le_length : 2 ≤ ts.length
  sorted : ts.Pairwise (InOrder order)
  not_own_kind : ∀ us, op.apply us ∉ ts
  number_first : ∀ t ∈ ts.tail, t.isNumber = false
  not_identity : ∀ x, number x ∈ ts → x.value ≠ op.unit
  not_zero : op = .product → ∀ x, number x ∈ ts → x.value ≠ 0
  unlike : (ts.filter fun t => !t.isNumber).Pairwise fun t u =>
    Unlike order (op.likeness t) (op.likeness u)

/-- The base and the exponent of a power in normal form. -/
structure NormalPower (b e : Term) : Prop where
  exponent_ne : ∀ y, e = number y → y.value ≠ 0 ∧ y.value ≠ 1
  base_ne_product : ∀ ts, b ≠ product ts
  not_whole : ∀ x y, b = number x → e = number y → ∀ n : ℤ, y.value ≠ n

/-- The outermost node is in normal form. -/
def NormalHere : Term → Prop
  | product ts => NormalMembers .product ts
  | sum ts => NormalMembers .sum ts
  | power b e => NormalPower b e
  | _ => True

/-! ## Nothing to collect -/

/-- If nothing was merged, no two keys compare equal. -/
theorem mergeRuns_unlike {ι : Type} {key whole : ι → Term}
    {merge : ι → List ι → Outcome (Option Term)} {items : List ι}
    (h : mergeRuns key whole merge items = .ok none) :
    items.Pairwise fun a b => Unlike order (key a) (key b) := by
  have hswaps : Swaps fun a b => (key a).order (key b) := fun a b => order_swaps (key a) (key b)
  have hchains : ∀ a, ChainsFrom (fun a b => (key a).order (key b)) a := fun a b c =>
    order_chains (key a) (key b) (key c)
  unfold mergeRuns at h
  obtain ⟨sorted, hsorted, h⟩ := Outcome.bind_eq_ok.mp h
  obtain ⟨runs, hruns, h⟩ := Outcome.bind_eq_ok.mp h
  obtain ⟨merged, -, h⟩ := Outcome.bind_eq_ok.mp h
  have hshort : ∀ run ∈ runs, run.length ≤ 1 := by
    intro run hrun
    by_contra hlong
    rw [if_pos (List.any_eq_true.mpr ⟨run, hrun, by simpa using hlong⟩)] at h
    cases h
  -- what stands alone among the sorted keys has no equal anywhere
  have hpairwise := pairwise_unlike hchains (sortBy_isChain hswaps hsorted)
    (runsBy_unlike hruns hshort)
  exact ((sortBy_perm hsorted).pairwise_iff fun h => h.symm hswaps).mp hpairwise

/-- Where there is nothing to merge, no two neighbours are alike, and so no two members are, as they
are in order. -/
theorem mergeLike_unlike {f : Term → Outcome Reduced} {op : Operation} {ts : List Term}
    (h : mergeLike f op ts = .ok none) :
    ts.Pairwise fun t u => Unlike order (op.likeness t) (op.likeness u) := by
  cases op with
  | product =>
    have hfactors : (ts.map Factor.ofTerm).Pairwise fun a b => Unlike order a.base b.base :=
      mergeRuns_unlike h
    rw [List.pairwise_map] at hfactors
    exact hfactors
  | sum =>
    have hmultiples : (ts.map Multiple.ofTerm).Pairwise fun a b => Unlike order a.term b.term :=
      mergeRuns_unlike h
    rw [List.pairwise_map] at hmultiples
    exact hmultiples

/-! ## Sums and products -/

section Operation

variable {op : Operation} {ts : List Term}

/-- Only the first member of a settled sum or product may be a number. -/
theorem OperationSettled.number_first (h : OperationSettled op ts) :
    ∀ t ∈ ts.tail, t.isNumber = false := by
  cases ts with
  | nil => simp
  | cons t ts =>
    by_cases ht : t.isNumber = true
    · obtain ⟨k, rfl⟩ := isNumber_iff.mp ht
      exact h.tail
    · intro u hu
      exact isNumber_of_head (Bool.eq_false_iff.mpr ht) h.sorted u (List.mem_cons_of_mem _ hu)

/-- A number among the members of a settled operation is the first of them. -/
theorem OperationSettled.eq_cons_of_number (h : OperationSettled op ts) {x : Number}
    (hx : number x ∈ ts) : ∃ us, ts = number x :: us ∧ us ≠ [] := by
  have hfirst := h.number_first
  have htwo := h.two_le_length
  cases ts with
  | nil => cases hx
  | cons t us =>
    rcases List.mem_cons.mp hx with rfl | hx
    · exact ⟨us, rfl, List.ne_nil_of_length_pos (by simp at htwo; omega)⟩
    · cases hfirst _ hx

theorem isTotal_of_isFraction {x : Number} (hx : x.IsFraction) : x.IsTotal := by
  obtain ⟨q, hq, rfl⟩ := hx
  exact (Number.simplify_ofRat_eq q).trans (Number.checked_of_fits hq)

/-- A number among the members is not the neutral one, which would have been dropped. -/
theorem OperationSettled.isNeutral_eq_false (h : OperationSettled op ts) {x : Number}
    (hx : number x ∈ ts) (hfraction : x.IsFraction) : op.isNeutral x = false := by
  obtain ⟨us, rfl, hus⟩ := h.eq_cons_of_number hx
  have hlead : leadingNumbers (number x :: us) = ([x], us) :=
    leadingNumbers_numbers_append [x] h.tail
  have hmerged := h.merged
  rw [hlead] at hmerged
  obtain ⟨y, hy, hsame⟩ := op.combine_neutral (isTotal_of_isFraction hfraction)
  have halone : us.isEmpty = false := Bool.eq_false_iff.mpr fun he => hus (List.isEmpty_iff.mp he)
  rw [← hsame]
  by_contra hneutral
  have hdropped : (op.isNeutral y && !us.isEmpty) = true := by
    rw [halone, Bool.not_false, Bool.and_true]
    exact Bool.eq_true_of_not_eq_false hneutral
  unfold mergeNumbers at hmerged
  rw [if_neg (by simp), List.foldlM_cons, hy, ok_bind, List.foldlM_nil, pure_bind,
    if_pos hdropped] at hmerged
  cases hmerged

/-- A fraction that does not count as neutral does not have the neutral value. -/
theorem value_ne_unit {x : Number} (hx : x.IsFraction) (h : op.isNeutral x = false) :
    x.value ≠ op.unit := by
  obtain ⟨q, -, rfl⟩ := hx
  rw [Number.value_ofRat]
  rintro rfl
  cases op <;> cases h

theorem value_ne_zero {x : Number} (hx : x.IsFraction) (h : x.isZero = false) : x.value ≠ 0 := by
  obtain ⟨q, -, rfl⟩ := hx
  rw [Number.value_ofRat]
  rintro rfl
  cases h

/-- What no rule for sums and products applies to, without a zero among the factors. -/
theorem OperationSettled.normal (h : OperationSettled op ts)
    (hfractions : ∀ x, number x ∈ ts → x.IsFraction) (hzero : NoZeroFactor (op.apply ts)) :
    NormalMembers op ts where
  two_le_length := h.two_le_length
  sorted := pairwise_of_isChain order_chains h.sorted
  not_own_kind us hus := by
    have hnone := h.no_lift _ hus
    cases op <;> cases hnone
  number_first := h.number_first
  not_identity x hx := value_ne_unit (hfractions x hx) (h.isNeutral_eq_false hx (hfractions x hx))
  not_zero hop x hx := by
    subst hop
    exact value_ne_zero (hfractions x hx) (hzero x hx)
  unlike := by
    have hranks := ranksAscend_of_isChain h.sorted
    have hrest : ∀ t ∈ (leadingNumbers ts).2, t.isNumber = false := fun t ht =>
      isNumber_of_mem_rest hranks ht
    -- what is not a number is what stands behind the numbers in front
    have hfilter : (ts.filter fun t => !t.isNumber) = (leadingNumbers ts).2 := by
      conv_lhs => rw [← leadingNumbers_append ts]
      rw [List.filter_append, List.filter_eq_nil_iff.mpr, List.nil_append, List.filter_eq_self]
      · intro t ht
        rw [hrest t ht]
        rfl
      · intro t ht
        obtain ⟨x, -, rfl⟩ := List.mem_map.mp ht
        simp
    rw [hfilter]
    exact mergeLike_unlike (h.unlike reduce)

end Operation

/-! ## Powers -/

section Power

variable {b e : Term}

/-- No rule for powers is made for this base and this exponent. -/
structure PowerKept (b e : Term) (whole : Option Int) : Prop where
  whole_eq : wholeExponent? e = .ok whole
  ne_one : whole ≠ some 1
  ne_zero : whole ≠ some 0
  base_ne_product : ∀ ts, b ≠ product ts
  number_kept : ∀ x, b = number x → numberPower? x e whole = .ok none

/-- A power that is left as it is has been looked at by every rule. -/
theorem powerKept_of_reducePower {f : Term → Outcome Reduced} {changed : Bool}
    (h : reducePower f b e changed = .ok ⟨power b e, false⟩) :
    ∃ whole, PowerKept b e whole := by
  -- whatever applies a rule says that it did something
  have hdone : ∀ t : Term, (⟨t, true⟩ : Reduced).performed = false →
      ∃ whole, PowerKept b e whole := fun t h => by cases h
  have hall : Meets (reducePower f b e changed)
      (fun r => r.performed = false → ∃ whole, PowerKept b e whole) fun _ => True := by
    refine reducePower_meets (fun n d _ => (meets_true _).imp fun r _ => hdone _) fun _ => ?_
    refine (meets_true _).eq_and.imp fun whole hwhole =>
      ⟨fun _ => hdone _, fun _ => hdone _, fun hone hzero => ?_⟩
    have hother : (∀ ts, b ≠ product ts) → (∀ x, b ≠ number x) → ∃ whole, PowerKept b e whole :=
      fun hproduct hnumber =>
        ⟨whole, hwhole.1, hone, hzero, hproduct, fun x hx => absurd hx (hnumber x)⟩
    cases b with
    | number x =>
      refine (meets_true (numberPower? x e whole)).eq_and.bind fun out hout => ?_
      cases out with
      | some y => exact hdone _
      | none =>
        refine fun _ => ⟨whole, hwhole.1, hone, hzero, fun ts hts => Term.noConfusion hts,
          fun y hy => ?_⟩
        rw [← Term.number.inj hy]
        exact hout.1
    | product ts => exact (meets_true _).bind fun r _ => hdone _
    | power b' e' =>
      refine (meets_true _).mono (fun _ _ _ => hother ?_ ?_) fun _ _ => trivial
      · exact fun _ h => by cases h
      · exact fun _ h => by cases h
    | var name => exact fun _ => hother nofun nofun
    | sum ts => exact fun _ => hother nofun nofun
    | call c ts => exact fun _ => hother nofun nofun
  exact hall.of_ok h rfl

/-- A whole power of a number is worked out. -/
theorem numberPower?_whole_ne_none (x : Number) (e : Term) (n : Int) :
    numberPower? x e (some n) ≠ .ok none := by
  intro h
  obtain ⟨y, -, hy⟩ := Outcome.bind_eq_ok.mp h
  cases hy

/-- The exponent of a power is whole if its value is. -/
theorem wholeExponent?_ofRat (n : ℤ) :
    wholeExponent? (number (.ofRat n)) = .ok (some n) := by
  rw [wholeExponent?, Number.whole?_ofRat]
  rfl

/-- Where no rule for powers is made for base and exponent, these are in normal form. -/
theorem PowerKept.normal {whole : Option Int} (h : PowerKept b e whole)
    (hfraction : ∀ y, e = number y → y.IsFraction) : NormalPower b e := by
  -- a whole exponent is the one that the rules look at
  have hwhole : ∀ y, e = number y → ∀ n : ℤ, y.value = n → whole = some n := by
    rintro y rfl n hvalue
    obtain ⟨q, -, rfl⟩ := hfraction y rfl
    rw [Number.value_ofRat] at hvalue
    have hn := h.whole_eq
    rw [hvalue, wholeExponent?_ofRat] at hn
    exact (Except.ok.inj hn).symm
  refine ⟨fun y hy => ⟨fun hzero => ?_, fun hone => ?_⟩, h.base_ne_product, fun x y hx hy n hn => ?_⟩
  · exact h.ne_zero (hwhole y hy 0 (by exact_mod_cast hzero))
  · exact h.ne_one (hwhole y hy 1 (by exact_mod_cast hone))
  · have hnone := h.number_kept x hx
    rw [hwhole y hy n hn] at hnone
    exact numberPower?_whole_ne_none x e n hnone

end Power

/-! ## All terms -/

/-- A settled node is in normal form, if the numbers in it are fractions and no factor is zero. -/
theorem SettledHere.normalHere {t : Term} (h : SettledHere t) (hin : fractions.In t)
    (hzero : NoZeroFactor t) : NormalHere t := by
  have hnumber : ∀ x, number x ∈ t.parts → x.IsFraction := fun x hx => (hin.inside _ hx).here
  cases t with
  | product ts =>
    have hmembers : OperationSettled .product ts := h
    exact hmembers.normal hnumber hzero
  | sum ts =>
    have hmembers : OperationSettled .sum ts := h
    exact hmembers.normal hnumber hzero
  | power b e =>
    obtain ⟨whole, hkept⟩ := powerKept_of_reducePower h
    exact hkept.normal fun y hy => hnumber y (by simp [parts, hy])
  | number x => exact trivial
  | var name => exact trivial
  | call c ts => exact trivial

/-- A fraction in lowest terms made of words is one in the sense of this module. -/
theorem isFraction_of_lowest {x : Number} (h : x.InLowestTerms ∧ x.InWords) : x.IsFraction := by
  cases x with
  | ratio n d =>
    obtain ⟨hlowest, hn, hd, -⟩ := h
    have heq := hlowest.eq_ofRat
    refine ⟨_, ?_, heq⟩
    obtain ⟨hnum, hden⟩ := Number.ratio.inj heq
    rw [Number.Fits, ← hnum, ← hden]
    exact ⟨hn, hd⟩
  | decimal v a => exact h.1.elim

/-- What reduction makes of a flattened and sorted term is in normal form everywhere, if the
numbers of that term are fractions in lowest terms with words for parts. -/
theorem reduce_normalForm {t s : Term} {r : Reduced} (hs : t.flatten.sort = .ok s)
    (hnumbers : AllNumbers (fun x => x.InLowestTerms ∧ x.InWords) s)
    (hr : s.reduce = .ok r) : Everywhere NormalHere r.term := by
  have hsorted := ((sort_sorted t.flatten).of_ok hs).partsSorted
  have hin : fractions.In s := in_numbersOnly_iff.mpr (hnumbers.imp fun _ => isFraction_of_lowest)
  have hsettled := ((reduce_normal hsorted).of_ok hr).settled
  have hfractions := (fractions_closed.reduce trivial s hin).of_ok hr
  have hzero := (reduce_zeroFree hsorted hin).of_ok hr
  exact ((hsettled.and hfractions.nested).and hzero).imp fun u hu =>
    SettledHere.normalHere hu.1.1 hu.1.2 hu.2

/-- `1/2 + x + 2 * x + (x * y)^2` becomes `1/2 + 3 * x + x^2 * y^2`. -/
theorem reduce_normalForm_collected :
    let s := sum [number (.ratio 1 2), var "x", product [number (.ratio 2 1), var "x"],
      power (product [var "x", var "y"]) (number (.ratio 2 1))]
    let r := sum [number (.ratio 1 2), product [number (.ratio 3 1), var "x"],
      product [power (var "x") (number (.ratio 2 1)), power (var "y") (number (.ratio 2 1))]]
    s.flatten.sort = .ok s ∧ AllNumbers (fun x => x.InLowestTerms ∧ x.InWords) s ∧
    s.reduce = .ok ⟨r, true⟩ ∧ Everywhere NormalHere r := by
  intro s r
  have hs : s.flatten.sort = .ok s := by with_unfolding_all rfl
  have hhalf : (Number.ratio 1 2).InLowestTerms ∧ (Number.ratio 1 2).InWords :=
    ⟨⟨by decide, by decide⟩, by decide, by decide, by decide⟩
  have htwo : (Number.ratio 2 1).InLowestTerms ∧ (Number.ratio 2 1).InWords :=
    ⟨⟨by decide, by decide⟩, by decide, by decide, by decide⟩
  have hnumbers : AllNumbers (fun x => x.InLowestTerms ∧ x.InWords) s :=
    ⟨hhalf, trivial, ⟨htwo, trivial, trivial⟩, ⟨⟨trivial, trivial, trivial⟩, htwo⟩, trivial⟩
  have hwithin : reduceWithin 6 s = .ok ⟨r, true⟩ := by with_unfolding_all rfl
  have hr : s.reduce = .ok ⟨r, true⟩ := reduce_of_reduceWithin hwithin
  exact ⟨hs, hnumbers, hr, reduce_normalForm hs hnumbers hr⟩

end Term
end Mathpad
