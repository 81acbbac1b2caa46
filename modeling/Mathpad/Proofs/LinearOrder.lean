import Mathlib.Algebra.Order.Ring.Int
import Mathlib.Tactic.NormNum
import Mathpad.Proofs.TermOrder

/-!
# Sorting does not depend on where the members stood

Comparing is transitive: what stands below something that stands below a third term
stands below the third one. So a sorted list is sorted as a whole and not only from each
member to the next, and where only equal terms tie, there is one sorted form for all
orders of the same members.
-/
set_option autoImplicit false

namespace Mathpad

/-! ## Transitivity -/

namespace Decimal

/-- A decimal measured in a finer unit. -/
theorem units_of_le {d : Decimal} {e m : Int} (hm : m ≤ d.exponent) (he : e ≤ m) :
    d.units e = d.units m * 10 ^ (m - e).toNat := by
  unfold units
  rw [mul_assoc]
  congr 1
  have hsplit : (d.exponent - e).toNat = (d.exponent - m).toNat + (m - e).toNat := by omega
  rw [hsplit]
  exact pow_add (10 : Int) _ _

/-- Any unit that is fine enough for both decimals will do to compare them. -/
theorem order_eq_compare {a b : Decimal} {e : Int} (ha : e ≤ a.exponent)
    (hb : e ≤ b.exponent) : a.order b = compare (a.units e) (b.units e) := by
  have hpos : (0 : Int) < 10 ^ (min a.exponent b.exponent - e).toNat := pow_pos (by norm_num) _
  have hmul : ∀ x y k : Int, 0 < k → compare x y = compare (x * k) (y * k) := by
    intro x y k hk
    rcases lt_trichotomy x y with h | h | h
    · rw [compare_lt_iff_lt.mpr h, compare_lt_iff_lt.mpr (mul_lt_mul_of_pos_right h hk)]
    · rw [h, compare_eq_iff_eq.mpr rfl, compare_eq_iff_eq.mpr rfl]
    · rw [compare_gt_iff_gt.mpr h, compare_gt_iff_gt.mpr (mul_lt_mul_of_pos_right h hk)]
  rw [units_of_le (min_le_left a.exponent b.exponent) (le_min ha hb),
    units_of_le (min_le_right a.exponent b.exponent) (le_min ha hb)]
  exact hmul _ _ _ hpos

end Decimal

/-- A linear order, compared twice. -/
theorem compare_then {α : Type} [Ord α] [Std.TransOrd α] [Std.LawfulEqOrd α] {x y z : α}
    (h : compare x y ≠ .gt) (h' : compare y z ≠ .gt) :
    compare x z = (compare x y).then (compare y z) := by
  have hyz : (compare y z).isLE = true := Ordering.isLE_iff_ne_gt.mpr h'
  cases hxy : compare x y with
  | gt => exact absurd hxy h
  | eq =>
    rw [Std.LawfulEqCmp.eq_of_compare hxy]
    rfl
  | lt => exact Std.TransCmp.lt_of_lt_of_isLE hxy hyz

/-- Comparing `a` with something that is not below it tells how `a` compares with whatever
is not below that. -/
def ChainsFrom {α : Type} (cmp : α → α → Outcome Ordering) (a : α) : Prop :=
  ∀ b c o o', cmp a b = .ok o → cmp b c = .ok o' → o ≠ .gt → o' ≠ .gt →
    cmp a c = .ok (o.then o')

/-- Comparing numbers is transitive, as it compares the decimals that they are. -/
theorem Number.order_chains (x : Number) : ChainsFrom order x := by
  intro y z o o' h h' ho ho'
  unfold Number.order at h h' ⊢
  obtain ⟨v, hv, h⟩ := Outcome.bind_eq_ok.mp h
  obtain ⟨w, hw, h⟩ := Outcome.bind_eq_ok.mp h
  obtain ⟨w', hw', h'⟩ := Outcome.bind_eq_ok.mp h'
  obtain ⟨u, hu, h'⟩ := Outcome.bind_eq_ok.mp h'
  rw [hw] at hw'
  cases hw'
  cases h
  cases h'
  rw [hv, hu, ok_bind, ok_bind]
  -- the least exponent of the three is fine enough for all of them
  let e := min v.exponent (min w.exponent u.exponent)
  have hve : e ≤ v.exponent := min_le_left _ _
  have hwe : e ≤ w.exponent := le_trans (min_le_right _ _) (min_le_left _ _)
  have hue : e ≤ u.exponent := le_trans (min_le_right _ _) (min_le_right _ _)
  rw [Decimal.order_eq_compare hve hwe] at ho ⊢
  rw [Decimal.order_eq_compare hwe hue] at ho' ⊢
  rw [Decimal.order_eq_compare hve hue, compare_then ho ho']
  rfl

namespace Term

/-- Ties may be broken, as long as both comparisons are transitive. -/
theorem breakTies_chains {p p' p'' q q' q'' : Outcome Ordering} {o o' : Ordering}
    (h : breakTies p q = .ok o) (h' : breakTies p' q' = .ok o') (ho : o ≠ .gt) (ho' : o' ≠ .gt)
    (hfirst : ∀ x y, p = .ok x → p' = .ok y → x ≠ .gt → y ≠ .gt → p'' = .ok (x.then y))
    (hsecond : q = .ok o → q' = .ok o' → q'' = .ok (o.then o')) :
    breakTies p'' q'' = .ok (o.then o') := by
  obtain ⟨x, hx, h⟩ := Outcome.bind_eq_ok.mp h
  obtain ⟨y, hy, h'⟩ := Outcome.bind_eq_ok.mp h'
  have hthen := hfirst x y hx hy
  -- the second comparison is only looked at where the first one is a tie
  cases x with
  | gt =>
    cases h
    exact absurd rfl ho
  | lt =>
    cases h
    cases y with
    | gt =>
      cases h'
      exact absurd rfl ho'
    | lt | eq =>
      rw [breakTies, hthen (by decide) (by decide)]
      rfl
  | eq =>
    cases y with
    | gt =>
      cases h'
      exact absurd rfl ho'
    | lt =>
      cases h'
      rw [breakTies, hthen (by decide) (by decide)]
      cases o with
      | gt => exact absurd rfl ho
      | lt | eq => rfl
    | eq =>
      rw [breakTies, hthen (by decide) (by decide)]
      exact hsecond h h'

/-- Lists are compared transitively if the members of the first one are. -/
theorem orderAll_chains {ts us vs : List Term} {o o' : Ordering}
    (h : ∀ t ∈ ts, ChainsFrom order t) (htu : orderAll ts us = .ok o)
    (huv : orderAll us vs = .ok o') (ho : o ≠ .gt) (ho' : o' ≠ .gt) :
    orderAll ts vs = .ok (o.then o') := by
  induction ts generalizing us vs o o' with
  | nil =>
    cases us with
    | nil =>
      cases htu
      exact huv
    | cons u us =>
      cases htu
      cases vs with
      | nil =>
        cases huv
        exact absurd rfl ho'
      | cons v vs => rfl
  | cons t ts ih =>
    cases us with
    | nil =>
      cases htu
      exact absurd rfl ho
    | cons u us =>
      cases vs with
      | nil =>
        cases huv
        exact absurd rfl ho'
      | cons v vs =>
        rw [orderAll_cons] at htu huv ⊢
        refine breakTies_chains htu huv ho ho' (h t (by simp) u v) fun hts hus => ?_
        exact ih (fun t ht => h t (by simp [ht])) hts hus ho ho'

/-- It is enough to compare terms of one kind: different kinds are compared by rank. -/
theorem chainsFrom_of_kind {t : Term}
    (h : ∀ u v o o', t.rank = u.rank → u.rank = v.rank → order t u = .ok o →
      order u v = .ok o' → o ≠ .gt → o' ≠ .gt → order t v = .ok (o.then o')) :
    ChainsFrom order t := by
  intro u v o o' htu huv ho ho'
  by_cases htu' : t.rank = u.rank
  · by_cases huv' : u.rank = v.rank
    · exact h u v o o' htu' huv' htu huv ho ho'
    · have hlt : u.rank < v.rank := lt_of_le_of_ne (rank_le_of_inOrder ⟨o', huv, ho'⟩) huv'
      rw [order_of_rank_ne huv', Nat.compare_eq_lt.mpr hlt] at huv
      cases huv
      rw [order_of_rank_ne (by omega), Nat.compare_eq_lt.mpr (by omega)]
      cases o with
      | gt => exact absurd rfl ho
      | lt | eq => rfl
  · have hlt : t.rank < u.rank := lt_of_le_of_ne (rank_le_of_inOrder ⟨o, htu, ho⟩) htu'
    have hle : u.rank ≤ v.rank := rank_le_of_inOrder ⟨o', huv, ho'⟩
    rw [order_of_rank_ne htu', Nat.compare_eq_lt.mpr hlt] at htu
    cases htu
    rw [order_of_rank_ne (by omega), Nat.compare_eq_lt.mpr (by omega)]
    rfl

/-- Comparing terms is transitive. -/
theorem order_chains (t : Term) : ChainsFrom order t := by
  -- terms of different kinds are ordered by their kinds, so three of one kind are left
  induction t using parts_induction with
  | number x =>
    refine chainsFrom_of_kind fun u v o o' hrank hrank' htu huv ho ho' => ?_
    cases u <;> cases v <;> simp only [rank] at hrank hrank' <;> try omega
    exact Number.order_chains _ _ _ _ _ htu huv ho ho'
  | var name =>
    refine chainsFrom_of_kind fun u v o o' hrank hrank' htu huv ho ho' => ?_
    cases u <;> cases v <;> simp only [rank] at hrank hrank' <;> try omega
    rw [order] at htu huv ⊢
    cases htu
    cases huv
    rw [compare_then ho ho']
  | product ts ih =>
    refine chainsFrom_of_kind fun u v o o' hrank hrank' htu huv ho ho' => ?_
    cases u <;> cases v <;> simp only [rank] at hrank hrank' <;> try omega
    rw [order] at htu huv ⊢
    exact orderAll_chains ih htu huv ho ho'
  | power b e ihb ihe =>
    refine chainsFrom_of_kind fun u v o o' hrank hrank' htu huv ho ho' => ?_
    cases u <;> cases v <;> simp only [rank] at hrank hrank' <;> try omega
    rw [order_power] at htu huv ⊢
    exact breakTies_chains htu huv ho ho' (ihb _ _) fun he he' => ihe _ _ _ _ he he' ho ho'
  | sum ts ih =>
    refine chainsFrom_of_kind fun u v o o' hrank hrank' htu huv ho ho' => ?_
    cases u <;> cases v <;> simp only [rank] at hrank hrank' <;> try omega
    rw [order] at htu huv ⊢
    exact orderAll_chains ih htu huv ho ho'
  | call f ts ih =>
    refine chainsFrom_of_kind fun u v o o' hrank hrank' htu huv ho ho' => ?_
    cases u <;> cases v <;> simp only [rank] at hrank hrank' <;> try omega
    rw [order_call] at htu huv ⊢
    refine breakTies_chains htu huv ho ho' (fun x y hx hy hx' hy' => ?_)
      fun hts hus => orderAll_chains ih hts hus ho ho'
    cases hx
    cases hy
    rw [compare_then hx' hy']

/-! ## Ties -/

/-- Terms that compare equal are equal, if that is true of their numbers. -/
theorem Tied.eq_of_allNumbers {P : Number → Prop}
    (hP : ∀ x y, P x → P y → x.order y = .ok .eq → x = y) {t u : Term} (h : Tied t u)
    (ht : AllNumbers P t) (hu : AllNumbers P u) : t = u := by
  have hall : ∀ ts us : List Term,
      (∀ t ∈ ts, ∀ u, Tied t u → AllNumbers P t → AllNumbers P u → t = u) →
      List.Forall₂ Tied ts us → AllNumbersIn P ts → AllNumbersIn P us → ts = us := by
    intro ts us ih htied hts hus
    induction htied with
    | nil => rfl
    | cons hhead _ ihtail =>
      rw [ih _ (by simp) _ hhead hts.1 hus.1,
        ihtail (fun t ht => ih t (by simp [ht])) hts.2 hus.2]
  induction t using parts_induction generalizing u with
  | number x =>
    cases h.tieCases with
    | number hxy => rw [hP _ _ ht hu hxy]
  | var name =>
    cases h.tieCases with
    | var => rfl
  | product ts ih =>
    cases h.tieCases with
    | product htied => rw [hall _ _ (fun t ht u h => ih t ht h) htied ht hu]
  | power b e ihb ihe =>
    cases h.tieCases with
    | power hb he => rw [ihb hb ht.1 hu.1, ihe he ht.2 hu.2]
  | sum ts ih =>
    cases h.tieCases with
    | sum htied => rw [hall _ _ (fun t ht u h => ih t ht h) htied ht hu]
  | call f ts ih =>
    cases h.tieCases with
    | call _ htied => rw [hall _ _ (fun t ht u h => ih t ht h) htied ht hu]

end Term

/-! ## One sorted form -/

section Sorting

variable {α : Type} {cmp : α → α → Outcome Ordering} {P : α → Prop}

/-- What may stand before something may stand before all that this may stand before. -/
theorem InOrder.trans (hchains : ∀ a, ChainsFrom cmp a) {a b c : α} (hab : InOrder cmp a b)
    (hbc : InOrder cmp b c) : InOrder cmp a c := by
  obtain ⟨o, hab, ho⟩ := hab
  obtain ⟨o', hbc, ho'⟩ := hbc
  refine ⟨o.then o', hchains a b c o o' hab hbc ho ho', ?_⟩
  cases o with
  | gt => exact absurd rfl ho
  | lt => exact nofun
  | eq => exact ho'

/-- A list that is in order from each member to the next is in order from each member to all
later ones. -/
theorem pairwise_of_isChain (hchains : ∀ a, ChainsFrom cmp a) {xs : List α}
    (h : xs.IsChain (InOrder cmp)) : xs.Pairwise (InOrder cmp) := by
  have : Trans (InOrder cmp) (InOrder cmp) (InOrder cmp) := ⟨InOrder.trans hchains⟩
  exact List.isChain_iff_pairwise.mp h

/-- In a sorted list every member may stand before all that come behind it. -/
theorem sortBy_pairwise (hcmp : Swaps cmp) (hchains : ∀ a, ChainsFrom cmp a) {xs ys : List α}
    (h : sortBy cmp xs = .ok ys) : ys.Pairwise (InOrder cmp) :=
  pairwise_of_isChain hchains (sortBy_isChain hcmp h)

/-- In a sorted list of which no member ties with the next one, no two members tie. -/
theorem pairwise_unlike (hchains : ∀ a, ChainsFrom cmp a) {xs : List α}
    (hsorted : xs.IsChain (InOrder cmp)) (hunlike : xs.IsChain (Unlike cmp)) :
    xs.Pairwise (Unlike cmp) := by
  -- each member is below the next one, and so below all later ones
  have hbelow : xs.IsChain fun a b => cmp a b = .ok .lt := by
    rw [List.isChain_iff_getElem] at hsorted hunlike ⊢
    intro i hi
    obtain ⟨o, ho, hgt⟩ := hsorted i hi
    obtain ⟨o', ho', heq⟩ := hunlike i hi
    obtain rfl := Except.ok.inj (ho.symm.trans ho')
    cases o with
    | lt => exact ho
    | eq => exact absurd rfl heq
    | gt => exact absurd rfl hgt
  have : Trans (fun a b => cmp a b = .ok .lt) (fun a b => cmp a b = .ok .lt)
      (fun a b => cmp a b = .ok .lt) :=
    ⟨fun {a b c} hab hbc => hchains a b c .lt .lt hab hbc nofun nofun⟩
  exact (List.isChain_iff_pairwise.mp hbelow).imp fun h => ⟨.lt, h, nofun⟩

/-- Lists with the same members have the same sorted form, if only equal members tie. -/
theorem sortBy_eq_of_perm (hcmp : Swaps cmp) (hchains : ∀ a, ChainsFrom cmp a)
    (hok : ∀ a b, P a → P b → ∃ o, cmp a b = .ok o)
    (htied : ∀ a b, P a → P b → cmp a b = .ok .eq → a = b) {xs ys : List α}
    (hperm : xs.Perm ys) (hxs : ∀ x ∈ xs, P x) :
    ∃ zs, sortBy cmp xs = .ok zs ∧ sortBy cmp ys = .ok zs := by
  have hsorts : ∀ us : List α, (∀ u ∈ us, P u) → ∃ zs, sortBy cmp us = .ok zs := by
    intro us hus
    have hmeets : Meets (sortBy cmp us) (fun zs => zs.Perm us) fun _ => False := by
      refine sortBy_meets fun x hx y hy => ?_
      obtain ⟨o, ho⟩ := hok x y (hus x hx) (hus y hy)
      rw [ho]
      exact trivial
    cases h : sortBy cmp us with
    | ok zs => exact ⟨zs, rfl⟩
    | error f => exact (hmeets.of_error h).elim
  have hys : ∀ y ∈ ys, P y := fun y hy => hxs y (hperm.symm.subset hy)
  obtain ⟨us, hus⟩ := hsorts xs hxs
  obtain ⟨vs, hvs⟩ := hsorts ys hys
  -- both sorted forms are in order throughout, and they have the same members
  have heq : us = vs := by
    refine List.Perm.eq_of_pairwise ?_ (sortBy_pairwise hcmp hchains hus)
      (sortBy_pairwise hcmp hchains hvs) ?_
    · rintro a b ha hb ⟨o, hab, ho⟩ ⟨o', hba, ho'⟩
      have hswap := hcmp a b o hab
      rw [hba] at hswap
      cases hswap
      refine htied a b (hxs a ((sortBy_perm hus).subset ha)) (hys b ((sortBy_perm hvs).subset hb)) ?_
      cases o with
      | gt => exact absurd rfl ho
      | lt => exact absurd rfl ho'
      | eq => exact hab
    · exact ((sortBy_perm hus).trans hperm).trans (sortBy_perm hvs).symm
  exact ⟨us, hus, heq ▸ hvs⟩

end Sorting
end Mathpad
