import Mathlib.Data.Option.NAry
import Mathlib.Data.Rat.Lemmas
import Mathlib.Tactic.Ring
import Mathpad.Proofs.Fractions
import Mathpad.Proofs.Operations

/-!
# The rational value of a term

A term without variables, whose numbers are fractions in lowest terms and whose exponents
have whole values, stands for a rational number, unless zero is raised to a negative power
somewhere in it. Flattening and sorting keep the value, and keep it missing where it is.
-/
set_option autoImplicit false

namespace Mathpad

/-! ## Values that may be missing -/

namespace Operation

/-- Combines values by the operation; the result is missing where one of them is. -/
def total? (op : Operation) (values : List (Option ℚ)) : Option ℚ :=
  values.foldr (Option.map₂ op.act) (some op.unit)

@[simp] theorem total?_nil (op : Operation) : op.total? [] = some op.unit := rfl

@[simp] theorem total?_cons (op : Operation) (x : Option ℚ) (xs : List (Option ℚ)) :
    op.total? (x :: xs) = Option.map₂ op.act x (op.total? xs) := rfl

/-- Values are combined in any grouping; if one is missing, so is the result. -/
theorem map₂_assoc (op : Operation) (a b c : Option ℚ) :
    Option.map₂ op.act (Option.map₂ op.act a b) c
      = Option.map₂ op.act a (Option.map₂ op.act b c) :=
  Option.map₂_assoc op.act_assoc

/-- The neutral value on the left changes nothing. -/
theorem map₂_unit (op : Operation) (a : Option ℚ) :
    Option.map₂ op.act (some op.unit) a = a := by
  cases a with
  | none => rfl
  | some q => exact congrArg some (op.act_unit q)

/-- The neutral value on the right changes nothing. -/
theorem map₂_unit_right (op : Operation) (a : Option ℚ) :
    Option.map₂ op.act a (some op.unit) = a := by
  cases a with
  | none => rfl
  | some q => exact congrArg some (op.act_unit_right q)

/-- The values of two lists are combined one list after the other. -/
theorem total?_append (op : Operation) (xs ys : List (Option ℚ)) :
    op.total? (xs ++ ys) = Option.map₂ op.act (op.total? xs) (op.total? ys) := by
  induction xs with
  | nil => exact (op.map₂_unit _).symm
  | cons x xs ih => rw [List.cons_append, total?_cons, ih, total?_cons, map₂_assoc]

/-- Values are combined in any order. -/
theorem total?_perm (op : Operation) {xs ys : List (Option ℚ)} (h : xs.Perm ys) :
    op.total? xs = op.total? ys := by
  induction h with
  | nil => rfl
  | cons x _ ih => rw [total?_cons, ih, total?_cons]
  | swap x y xs =>
    -- the values may be missing, so the order of the two is changed around the brackets
    have hswap : Option.map₂ op.act y x = Option.map₂ op.act x y := Option.map₂_comm op.act_comm
    simp only [total?_cons]
    rw [← map₂_assoc, hswap, map₂_assoc]
  | trans _ _ ih ih' => rw [ih, ih']

/-- Where no value is missing, the values are combined as rational numbers are. -/
theorem total?_some (op : Operation) (qs : List ℚ) :
    op.total? (qs.map some) = some (op.fold qs) := by
  induction qs with
  | nil => rw [List.map_nil, total?_nil, fold_nil]
  | cons q qs ih =>
    rw [List.map_cons, total?_cons, ih, fold_cons]
    rfl

theorem total?_of_mem_none (op : Operation) {xs : List (Option ℚ)} (h : none ∈ xs) :
    op.total? xs = none := by
  induction xs with
  | nil => simp at h
  | cons x xs ih =>
    rw [total?_cons]
    rcases List.mem_cons.mp h with rfl | h
    · rfl
    · rw [ih h, Option.map₂_none_right]

end Operation

/-- The power of two values, if the exponent is whole and zero is not inverted. -/
def power? (base exponent : Option ℚ) : Option ℚ := do
  let p ← base
  let q ← exponent
  if q.den = 1 ∧ (0 ≤ q.num ∨ p ≠ 0) then some (p ^ q.num) else none

/-- A whole power of a value, zero not being inverted. -/
theorem power?_intCast {p : ℚ} {n : Int} (h : 0 ≤ n ∨ p ≠ 0) :
    power? (some p) (some n) = some (p ^ n) := by
  change (if (n : ℚ).den = 1 ∧ (0 ≤ (n : ℚ).num ∨ p ≠ 0) then _ else _) = _
  rw [Rat.den_intCast, Rat.num_intCast, if_pos ⟨rfl, h⟩]

theorem power?_zero {n : Int} (hn : n < 0) : power? (some 0) (some n) = none := by
  change (if (n : ℚ).den = 1 ∧ (0 ≤ (n : ℚ).num ∨ (0 : ℚ) ≠ 0) then _ else _) = _
  rw [Rat.den_intCast, Rat.num_intCast, if_neg]
  intro h
  rcases h.2 with hle | hne
  · omega
  · exact hne rfl

/-! ## Values of terms -/

namespace Term

mutual

/-- The rational number that a term without variables stands for. -/
def value? : Term → Option ℚ
  | number (.ratio n d) => some (n / d)
  | number (.decimal ..) => none
  | var _ => none
  | product ts => Operation.product.total? (values? ts)
  | power b e => power? b.value? e.value?
  | sum ts => Operation.sum.total? (values? ts)
  | call _ _ => none

/-- The rational numbers that some terms stand for. -/
def values? : List Term → List (Option ℚ)
  | [] => []
  | t :: ts => t.value? :: values? ts

end

mutual

/-- A term without variables or function calls, whose numbers are fractions in lowest terms
and whose exponents have whole values. -/
def IsClosed : Term → Prop
  | number x => ∃ q, x = .ofRat q
  | var _ => False
  | product ts => AreClosed ts
  | power b e => b.IsClosed ∧ e.IsClosed ∧ ∃ n : Int, e.value? = some (n : ℚ)
  | sum ts => AreClosed ts
  | call _ _ => False

/-- All of these terms are closed. -/
def AreClosed : List Term → Prop
  | [] => True
  | t :: ts => t.IsClosed ∧ AreClosed ts

end

theorem value?_ofRat (q : ℚ) : (number (.ofRat q)).value? = some q :=
  congrArg some (Rat.num_div_den q)

theorem values?_eq_map (ts : List Term) : values? ts = ts.map value? := by
  induction ts with
  | nil => rfl
  | cons t ts ih => rw [values?, ih, List.map_cons]

theorem value?_apply (op : Operation) (ts : List Term) :
    (op.apply ts).value? = op.total? (ts.map value?) := by
  rw [← values?_eq_map]
  cases op <;> rfl

/-- Some terms are closed if and only if each of them is. -/
theorem areClosed_iff {ts : List Term} : AreClosed ts ↔ ∀ t ∈ ts, t.IsClosed := by
  induction ts with
  | nil => simp [AreClosed]
  | cons t ts ih => simp [AreClosed, ih]

theorem isClosed_apply (op : Operation) {ts : List Term} :
    (op.apply ts).IsClosed ↔ ∀ t ∈ ts, t.IsClosed := by
  cases op <;> exact areClosed_iff

/-- What a closed term is spliced in as is closed. -/
theorem isClosed_lift {op : Operation} {t u : Term} (ht : t.IsClosed) (hu : u ∈ op.lift t) :
    u.IsClosed := by
  rcases Operation.mem_lift hu with rfl | ⟨ts, rfl, hmem⟩
  · exact ht
  · exact (isClosed_apply op).mp ht u hmem

/-- Lifting the members of a member does not change the value. -/
theorem total?_lift (op : Operation) (t : Term) :
    op.total? ((op.lift t).map value?) = t.value? := by
  rcases op.lift_cases t with h | ⟨ts, rfl, h⟩
  · rw [h, List.map_singleton, Operation.total?_cons, Operation.total?_nil,
      Operation.map₂_unit_right]
  · rw [h, value?_apply]

/-- Closed terms have fractions with denominators only, as those are in lowest terms. -/
theorem IsClosed.hasDenominators {t : Term} (h : t.IsClosed) :
    AllNumbers Number.HasDenominator t := by
  induction t using operation_induction with
  | number x =>
    obtain ⟨q, rfl⟩ := h
    exact Number.hasDenominator_ofRat q
  | var name => exact trivial
  | operation op ts ih =>
    exact (allNumbers_apply op).mpr fun t ht => ih t ht ((isClosed_apply op).mp h t ht)
  | power b e ihb ihe => exact ⟨ihb h.1, ihe h.2.1⟩
  | call f ts _ => exact absurd h (by simp [IsClosed])

/-- Comparing closed terms overflows at worst. -/
theorem order_closed {t u : Term} (ht : t.IsClosed) (hu : u.IsClosed) :
    Meets (order t u) (fun _ => True) Fault.IsOverflow :=
  order_overflow ht.hasDenominators hu.hasDenominators

/-! ## Flattening and sorting -/

/-- A closed term of the same value, if there is one. -/
structure SameRational (t u : Term) : Prop where
  isClosed : u.IsClosed
  value?_eq : u.value? = t.value?

/-- In a closed power, base and exponent may be replaced by others of their values: the exponent
stays whole. -/
theorem SameRational.power {b b' e e' : Term} (hb : SameRational b b') (he : SameRational e e')
    (h : (power b e).IsClosed) : SameRational (power b e) (power b' e') := by
  obtain ⟨-, -, n, hn⟩ := h
  refine ⟨⟨hb.isClosed, he.isClosed, n, he.value?_eq.trans hn⟩, ?_⟩
  change power? b'.value? e'.value? = power? b.value? e.value?
  rw [hb.value?_eq, he.value?_eq]

/-- Splicing the members of an operation into it keeps its value, if that holds of the members. -/
theorem flatten_apply_sameRational (op : Operation) {ts : List Term}
    (h : ∀ t ∈ ts, SameRational t t.flatten) :
    SameRational (op.apply ts) (op.apply ts).flatten := by
  rw [flatten_apply]
  refine ⟨(isClosed_apply op).mpr fun u hu => ?_, ?_⟩
  · obtain ⟨v, hv, hu⟩ := List.mem_flatMap.mp hu
    obtain ⟨t, ht, rfl⟩ := List.mem_map.mp hv
    exact isClosed_lift (h t ht).isClosed hu
  · rw [value?_apply, value?_apply]
    induction ts with
    | nil => rfl
    | cons t ts ih =>
      rw [List.map_cons, List.flatMap_cons, List.map_append, Operation.total?_append,
        total?_lift, ih fun t ht => h t (by simp [ht]), (h t (by simp)).value?_eq,
        List.map_cons, Operation.total?_cons]

/-- Flattening a closed term keeps its value. -/
theorem flatten_sameRational {t : Term} (ht : t.IsClosed) : SameRational t t.flatten := by
  induction t using operation_induction with
  | number x => exact ⟨ht, rfl⟩
  | var name => exact absurd ht (by simp [IsClosed])
  | operation op ts ih =>
    exact flatten_apply_sameRational op fun t htm => ih t htm ((isClosed_apply op).mp ht t htm)
  | power b e ihb ihe => exact (ihb ht.1).power (ihe ht.2.1) ht
  | call f ts _ => exact absurd ht (by simp [IsClosed])

/-- Sorting the members of an operation keeps its value, if that holds of the members. -/
theorem sort_apply_sameRational (op : Operation) {ts : List Term}
    (h : ∀ t ∈ ts, Meets t.sort (SameRational t) Fault.IsOverflow) :
    Meets (op.apply ts).sort (SameRational (op.apply ts)) Fault.IsOverflow := by
  rw [sort_apply]
  refine (Meets.mapM h).bind fun us hus => ?_
  have hclosed : ∀ u ∈ us, u.IsClosed := fun u hu => by
    obtain ⟨t, _, hsame⟩ := exists_of_forall₂_right hus hu
    exact hsame.isClosed
  refine (sortBy_meets fun t ht u hu => order_closed (hclosed t ht) (hclosed u hu)).bind
    fun sorted hperm => ?_
  refine ⟨(isClosed_apply op).mpr fun u hu => hclosed u (hperm.subset hu), ?_⟩
  rw [value?_apply, value?_apply, op.total?_perm (hperm.map value?)]
  clear hperm hclosed h
  induction hus with
  | nil => rfl
  | cons hhead _ ih =>
    rw [List.map_cons, Operation.total?_cons, ih, hhead.value?_eq, List.map_cons,
      Operation.total?_cons]

/-- Sorting a closed term keeps its value; it fails only if fractions overflow while they are
compared. -/
theorem sort_sameRational {t : Term} (ht : t.IsClosed) :
    Meets t.sort (SameRational t) Fault.IsOverflow := by
  induction t using operation_induction with
  | number x => exact ⟨ht, rfl⟩
  | var name => exact absurd ht (by simp [IsClosed])
  | operation op ts ih =>
    exact sort_apply_sameRational op fun t htm => ih t htm ((isClosed_apply op).mp ht t htm)
  | power b e ihb ihe =>
    rw [sort]
    refine (ihb ht.1).bind fun b' hb' => ?_
    refine (ihe ht.2.1).bind fun e' he' => ?_
    exact hb'.power he' ht
  | call f ts _ => exact absurd ht (by simp [IsClosed])

end Term
end Mathpad
