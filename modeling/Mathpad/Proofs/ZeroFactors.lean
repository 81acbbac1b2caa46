import Mathpad.Proofs.Idempotence
import Mathpad.Proofs.Preorder
import Mathpad.Proofs.StoredNumbers

/-!
# Zero factors

Whether a factor is zero is checked before the numbers of a product are multiplied. Decimals
may become zero after that, but the product of fractions is exact and zero only if one of them
is. So reduction of a term whose numbers are fractions that fit leaves no zero among the
factors of any product.
-/
set_option autoImplicit false

namespace Mathpad

/-! ## Fractions that fit -/

/-- A fraction in lowest terms with both parts in a word. -/
def Number.IsFraction (x : Number) : Prop := ∃ q, Fits q ∧ x = ofRat q

theorem Number.Yields.isFraction {o : Outcome Number} {q : ℚ} (h : Yields o q) :
    Meets o IsFraction fun _ => True :=
  h.mono (fun _ hx => ⟨q, hx.2, hx.1⟩) fun _ _ => trivial

/-- A stored fraction is in lowest terms with both parts in a word. -/
theorem Number.isFraction_of_stored {n d : Int} (h : (Number.ratio n d).Stored) :
    (Number.ratio n d).IsFraction := by
  generalize hx : Number.ratio n d = x at h
  cases h with
  | ratio hq => exact ⟨_, hq, rfl⟩
  | decimal => cases hx

theorem Number.IsFraction.stored {x : Number} (h : x.IsFraction) : x.Stored := by
  obtain ⟨q, hq, rfl⟩ := h
  exact .ratio hq

/-- Whole powers of fractions are fractions. -/
theorem Number.powInt_isFraction (q : ℚ) (n : Int) :
    Meets ((ofRat q).powInt n) IsFraction fun _ => True := by
  rw [powInt_ofRat_cases]
  by_cases hinverted : q = 0 ∧ n < 0
  · rw [if_pos hinverted]
    exact trivial
  · rw [if_neg hinverted]
    exact (checked_yields _).isFraction

namespace Term

/-- The numbers of a term are fractions that fit. -/
def fractions : Leaves := numbersOnly Number.IsFraction

/-- Arithmetic on fractions stays among fractions. -/
theorem fractions_closed : fractions.Closed fun _ => True where
  neutral op := by
    cases op with
    | product => exact ⟨1, Number.fits_one, rfl⟩
    | sum => exact ⟨0, ⟨rfl, rfl⟩, rfl⟩
  combine op x y hx hy := by
    obtain ⟨p, -, rfl⟩ := hx
    obtain ⟨q, -, rfl⟩ := hy
    cases op with
    | product => exact (Number.mul_ofRat p q).isFraction
    | sum => exact (Number.add_ofRat p q).isFraction
  powInt n hx := by
    obtain ⟨q, -, rfl⟩ := hx
    exact Number.powInt_isFraction q n
  pow _ he := by
    obtain ⟨q, -, he⟩ := he
    cases he
  split h := by
    obtain ⟨hn, hd⟩ := Number.stored_split h.stored
    exact ⟨Number.isFraction_of_stored hn, Number.isFraction_of_stored hd⟩
  whole _ := meets_true _
  order _ _ := meets_true _

/-! ## Numbers -/

/-- Numbers that are not zero have a product that is not zero, if they are fractions. -/
theorem mergeNumbers_nonzero {op : Operation} {front numbers : List Number} {alone any : Bool}
    (hfractions : ∀ x ∈ front, x.IsFraction) (habsorbs : front.any op.absorbs = false)
    (h : mergeNumbers op front alone = .ok (numbers, any)) :
    numbers.any op.absorbs = false := by
  rw [List.any_eq_false] at habsorbs ⊢
  cases op with
  | sum => exact fun _ _ => nofun
  | product =>
    have hnonzero : ∀ x ∈ front, ∃ q : ℚ, q ≠ 0 ∧ x = .ofRat q := by
      intro x hx
      obtain ⟨q, -, rfl⟩ := hfractions x hx
      exact ⟨q, fun hq => habsorbs _ hx ((Number.isZero_ofRat q).mpr hq), rfl⟩
    have hkept : Meets (mergeNumbers .product front alone)
        (fun r => ∀ x ∈ r.1, ∃ q : ℚ, q ≠ 0 ∧ x = .ofRat q) fun _ => True := by
      refine Leaves.mergeNumbers_keeps_each ⟨1, one_ne_zero, rfl⟩ (fun x y hx hy => ?_) hnonzero alone
      obtain ⟨p, hp, rfl⟩ := hx
      obtain ⟨q, hq, rfl⟩ := hy
      exact (Number.mul_ofRat p q).mono (fun _ hz => ⟨p * q, mul_ne_zero hp hq, hz.1⟩)
        fun _ _ => trivial
    intro x hx
    obtain ⟨q, hq, rfl⟩ := hkept.of_ok h x hx
    exact fun hzero => hq ((Number.isZero_ofRat q).mp hzero)

/-! ## The rules -/

/-- No product in the term has zero among its factors. -/
def ZeroFree (t : Term) : Prop := Everywhere NoZeroFactor t

/-- What the reductions that are asked for give is what reduction gives, and it is free of zero
factors where the term is sorted and made of fractions. -/
def FreesOfZeros (f : Term → Outcome Reduced) : Prop :=
  ∀ u, Meets (f u) (fun r => u.reduce = .ok r ∧
    (PartsSorted u → fractions.In u → ZeroFree r.term)) fun _ => True

section Rules

variable {f : Term → Outcome Reduced} {op : Operation} {ts : List Term} {b e : Term}

/-- What frees terms of zero factors gives what reduction gives, so it settles them too. -/
theorem FreesOfZeros.settles (hf : FreesOfZeros f) : Settles f := fun u hu =>
  (hf u).imp fun _ hr => ⟨hr.1, (reduce_normal hu).of_ok hr.1⟩

/-- What frees terms of zero factors gives what reduction gives, so it keeps their numbers
fractions. -/
theorem FreesOfZeros.kept (hf : FreesOfZeros f) : fractions.Kept (fun _ => True) f :=
  fun u hu => (hf u).imp fun _ hr => (fractions_closed.reduce trivial u hu).of_ok hr.1

/-- A sorted term that is made of fractions. -/
structure Clean (t : Term) : Prop where
  sorted : Sorted t
  fractions : fractions.In t

theorem clean_number {x : Number} (h : x.IsFraction) : Clean (number x) :=
  ⟨sorted_number x, Leaves.in_number h⟩

theorem Clean.power (hb : Clean b) (he : Clean e) : Clean (Term.power b e) :=
  ⟨Everywhere.power trivial hb.sorted he.sorted, Leaves.in_power hb.fractions he.fractions⟩

theorem Clean.inside {t u : Term} (h : Clean t) (hu : u ∈ t.parts) : Clean u :=
  ⟨h.sorted.inside u hu, h.fractions.inside u hu⟩

/-- What is asked for is clean and free of zero factors. -/
theorem FreesOfZeros.asked (hf : FreesOfZeros f) {t : Term} (hsorted : PartsSorted t)
    (hin : fractions.In t) :
    Meets (f t) (fun r => Clean r.term ∧ ZeroFree r.term) fun _ => True :=
  ((hf t).and ((hf.settles t hsorted).and (hf.kept t hin))).mono
    (fun _ hr => ⟨⟨hr.2.1.2.settled.sorted, hr.2.2⟩, hr.1.2 hsorted hin⟩) fun _ _ => trivial

/-- The powers that are asked for come back clean and free of zero factors. -/
theorem FreesOfZeros.power (hf : FreesOfZeros f) (hb : Clean b) (he : Clean e) :
    Meets (f (power b e)) (fun r => Clean r.term ∧ ZeroFree r.term) fun _ => True :=
  hf.asked (partsSorted_power hb.sorted he.sorted) (Leaves.in_power hb.fractions he.fractions)

theorem FreesOfZeros.apply (hf : FreesOfZeros f) (op : Operation) (hts : ∀ t ∈ ts, Clean t) :
    Meets (f (op.apply ts)) (fun r => Clean r.term ∧ ZeroFree r.term) fun _ => True :=
  hf.asked (partsSorted_apply op fun t ht => (hts t ht).sorted)
    (Leaves.in_apply op fun t ht => (hts t ht).fractions)

/-! ### Sums and products -/

/-- What a term without zero factors is spliced in as has none. -/
theorem zeroFree_lift {t u : Term} (ht : ZeroFree t) (hu : u ∈ op.lift t) : ZeroFree u := by
  rcases Operation.mem_lift hu with rfl | ⟨ts, rfl, hmem⟩
  · exact ht
  · exact ht.members op u hmem

/-- An operation has no zero factor anywhere if its members have none and are none. -/
theorem ofMembers_zeroFree {us : List Term} {changed : Bool} (hus : ∀ u ∈ us, ZeroFree u)
    (h : NoZeroFactor (op.apply us)) : ZeroFree (ofMembers op us changed).term :=
  ofMembers_cases (Everywhere.number trivial) hus fun _ => Everywhere.apply op h hus

/-- An operation has no zero factor if none of the numbers in front is zero. -/
theorem noZeroFactor_of_leading {front : List Number} {rest : List Term}
    (hbehind : ∀ t ∈ rest, t.isNumber = false) (h : front.any op.absorbs = false) :
    NoZeroFactor (op.apply (front.map number ++ rest)) := by
  cases op with
  | sum => exact trivial
  | product =>
    intro x hx
    rcases List.mem_append.mp hx with hx | hx
    · exact Bool.eq_false_iff.mpr (List.any_eq_false.mp h x (by simpa using hx))
    · cases hbehind _ hx

/-- One step of reducing an operation leaves no zero factor: a product of fractions is zero only if
a factor is, and the fractions were looked at before they were multiplied. -/
theorem reduceOperation_zeroFree (hf : FreesOfZeros f) (hts : ∀ t ∈ ts, Clean t) {r : Reduced}
    (h : reduceOperation f op ts = .ok r) : ZeroFree r.term := by
  obtain ⟨front, rest, sorted, rs, changed, hred, hlead, hend⟩ := reduceOperation_cases h
  obtain ⟨hsettled, hchain⟩ := hred.settled hf.settles fun t ht => (hts t ht).sorted
  have hbehind : ∀ t ∈ rest, t.isNumber = false :=
    isNumber_behind (ranksAscend_of_isChain hchain) hlead
  have hmembers : ∀ u ∈ front.map number ++ rest, fractions.In u ∧ ZeroFree u := by
    intro u hu
    obtain ⟨r, hr, hu⟩ := List.mem_flatMap.mp (hred.members_perm.subset hu)
    obtain ⟨t, ht, hfr⟩ := exists_of_forall₂_right hred.reduced hr
    have hclean := hts t (hred.sorted_perm.subset ht)
    obtain ⟨hr, hzero⟩ := (hf.asked hclean.sorted.partsSorted hclean.fractions).of_ok hfr
    exact ⟨Leaves.in_lift hr.fractions hu, zeroFree_lift hzero hu⟩
  have hfront : ∀ x ∈ front, x.IsFraction := fun x hx => (hmembers (number x) (by simp [hx])).1.number
  -- a factor of zero ends the step; what is merged is reduced again; the rest is made of nonzero
  -- numbers
  cases hend with
  | absorbed => exact Everywhere.number trivial
  | @merged numbers any combined r hnumbers hlike hagain =>
    have hrest : ∀ t ∈ rest, Settled t ∧ t.isNumber = false := fun t ht =>
      ⟨(hsettled t (by simp [ht])).settled, hbehind t ht⟩
    have hsorted := (mergeLike_sorted hf.settles op hrest).of_ok hlike combined rfl
    have hin := (fractions_closed.mergeLike hf.kept
      (fun t ht => (hmembers t (by simp [ht])).1) op).of_ok hlike combined rfl
    have hmerged := (fractions_closed.mergeNumbers op hfront _).of_ok hnumbers
    exact ((hf.apply op (forall_numbers_append (fun x hx => clean_number (hmerged x hx))
      fun t ht => ⟨hsorted t ht, hin t ht⟩)).of_ok hagain).2
  | kept habsorbs hnumbers hlike =>
    refine ofMembers_zeroFree (forall_numbers_append (fun _ _ => Everywhere.number trivial)
      fun t ht => (hmembers t (by simp [ht])).2) ?_
    exact noZeroFactor_of_leading hbehind (mergeNumbers_nonzero hfront habsorbs hnumbers)

/-! ### Powers -/

/-- Combining a base with its exponent leaves no zero factor. -/
theorem combinePower_zeroFree (hf : FreesOfZeros f) (hb : Clean b) (he : Clean e)
    (hkept : ZeroFree (Term.power b e)) (whole : Option Int) (changed : Bool) :
    Meets (combinePower f b e whole changed) (fun r => ZeroFree r.term) fun _ => True := by
  cases b with
  | number x =>
    refine (meets_true (numberPower? x e whole)).bind fun out _ => ?_
    cases out with
    | some y => exact Everywhere.number trivial
    | none => exact hkept
  | power b' e' =>
    -- two exponents are multiplied by reducing their product, which leaves no zero factor in it
    have hexponents : ∀ u ∈ [e', e], Clean u := by
      intro u hu
      rcases List.mem_cons.mp hu with rfl | hu
      · exact hb.inside (by simp [parts])
      · rw [List.mem_singleton.mp hu]
        exact he
    refine (hf.apply .product hexponents).bind fun x hx => ?_
    by_cases hsplit : (splitExponent? x.term).isSome = true
    · rw [if_pos hsplit]
      exact hkept
    · rw [if_neg hsplit]
      have hbase : Clean b' := hb.inside (by simp [parts])
      exact (hf.power hbase hx.1).bind fun r hr => hr.2
  | product ts =>
    have hpowers : ∀ u ∈ ts.map (.power · e), Clean u := by
      intro u hu
      obtain ⟨t, ht, rfl⟩ := List.mem_map.mp hu
      exact (hb.inside ht).power he
    exact (hf.apply .product hpowers).bind fun r hr => hr.2
  | var name => exact hkept
  | sum ts => exact hkept
  | call c ts => exact hkept

/-- One step of reducing a power leaves no zero factor. -/
theorem reducePower_zeroFree (hf : FreesOfZeros f) (hb : Clean b) (he : Clean e)
    (hbzero : ZeroFree b) (hezero : ZeroFree e) (changed : Bool) :
    Meets (reducePower f b e changed) (fun r => ZeroFree r.term) fun _ => True := by
  refine reducePower_meets (fun n d hsplit => ?_) fun _ => ?_
  · rw [Leaves.eq_of_splitExponent? hsplit] at he
    obtain ⟨hn, hd⟩ := fractions_closed.split he.fractions.number
    exact (hf.power (hb.power (clean_number hn)) (clean_number hd)).imp fun r hr => hr.2
  · refine (meets_true _).imp fun whole _ => ⟨fun _ => hbzero, fun _ => Everywhere.number trivial,
      fun _ _ => ?_⟩
    exact combinePower_zeroFree hf hb he (Everywhere.power trivial hbzero hezero) whole changed

/-- One step of reduction leaves no zero factor. -/
theorem reduceStep_zeroFree (hf : FreesOfZeros f) {t : Term} (hsorted : PartsSorted t)
    (hin : fractions.In t) :
    Meets (reduceStep f t) (fun r => ZeroFree r.term) fun _ => True := by
  have hparts : ∀ u ∈ t.parts, Clean u := fun u hu => ⟨hsorted u hu, hin.inside u hu⟩
  have hasked : ∀ u ∈ t.parts, Meets (f u) (fun r => Clean r.term ∧ ZeroFree r.term)
      fun _ => True := fun u hu => hf.asked (hparts u hu).sorted.partsSorted (hparts u hu).fractions
  cases t with
  | number x => exact Everywhere.number trivial
  | var name => exact ⟨trivial, fun u hu => by simp [parts] at hu⟩
  | product ts => exact (meets_true _).eq_and.imp fun r hr => reduceOperation_zeroFree hf hparts hr.1
  | sum ts => exact (meets_true _).eq_and.imp fun r hr => reduceOperation_zeroFree hf hparts hr.1
  | power b e =>
    rw [reduceStep]
    refine (hasked b (by simp [parts])).bind fun rb hrb => ?_
    refine (hasked e (by simp [parts])).bind fun re hre => ?_
    exact reducePower_zeroFree hf hrb.1 hre.1 hrb.2 hre.2 _
  | call c ts =>
    rw [reduceStep]
    refine (Meets.mapM hasked).bind fun rs hrs => ⟨trivial, fun u hu => ?_⟩
    obtain ⟨r, hr, rfl⟩ := List.mem_map.mp hu
    obtain ⟨t, -, hclean⟩ := exists_of_forall₂_right hrs hr
    exact hclean.2

end Rules

/-- Reduction of a term with sorted parts that is made of fractions leaves no zero among the
factors of a product. -/
theorem reduce_zeroFree {t : Term} (hsorted : PartsSorted t) (hin : fractions.In t) :
    Meets t.reduce (fun r => ZeroFree r.term) fun _ => True := by
  have hall := reduce_induction (D := fun _ => True)
    (Q := fun u r => PartsSorted u → fractions.In u → ZeroFree r.term) (E := fun _ _ => True)
    (fun f hf u _ => ?_) t trivial
  · exact hall.imp fun _ hr => hr hsorted hin
  · have hfrees : FreesOfZeros f := fun v => (hf v trivial).mono (fun _ h => h) fun _ _ => trivial
    by_cases hu : PartsSorted u ∧ fractions.In u
    · exact (reduceStep_zeroFree hfrees hu.1 hu.2).mono (fun _ hr _ _ => hr) fun _ _ => .inr trivial
    · exact (meets_true _).mono (fun _ _ hs hi => absurd ⟨hs, hi⟩ hu) fun _ _ => .inr trivial

end Term
end Mathpad
