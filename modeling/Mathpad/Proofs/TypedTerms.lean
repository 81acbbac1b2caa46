import Mathpad.Proofs.Idempotence
import Mathpad.Proofs.TypedRows
import Mathpad.Term.OfExpr

/-!
# The terms that come from text

Typed items make terms of variables that are single letters, of calls with as many
arguments as their functions take, and of numbers that can be stored. Simplifying such a
term gives one that is made of the same and settled.
-/
set_option autoImplicit false

namespace Mathpad

namespace Term

/-- What a term is made of that comes from text. -/
def typed : Leaves := ⟨Number.Stored, IsLetter, fun f n => n = f.arity⟩

/-- Reduction can keep the numbers of typed terms storable, and their names and calls as they were
typed. -/
theorem typed_closed : typed.Closed fun _ => True := stored_closed _ _

end Term

/-! ## Numbers -/

/-- The number of a literal can be stored. -/
theorem Numeral.number_stored (n : Numeral) (h : n.InRange) : n.number.Stored := by
  unfold number
  by_cases hword : n.fraction = none ∧ (n.mantissa : Int) ≤ maxWord
  · rw [if_pos hword]
    refine .ratio (q := (n.mantissa : Int)) ⟨?_, rfl⟩
    simpa [isWord, maxWord] using hword.2
  · rw [if_neg hword]
    exact .decimal ⟨h.1, neg_le_neg (by exact_mod_cast h.2),
      fun h => absurd h Bool.false_ne_true⟩ .exact

/-- The opposite of a decimal that can be stored can be stored. -/
theorem Decimal.Stored.negate {v : Decimal} (h : v.Stored) : (v.negate precision).Stored := by
  unfold Decimal.negate
  by_cases hzero : v.digits = 0
  · rw [if_pos hzero]
    exact ⟨h.digits, h.places, nofun⟩
  · rw [if_neg hzero]
    have hcount := Decimal.digitCount_round_le (p := precision) (by decide) v.flip
    have hlt := Decimal.lt_pow_of_digitCount_le hcount
    have hmax : 10 ^ precision ≤ maxMagnitude := by decide
    refine ⟨by omega, ?_, fun _ => hcount⟩
    exact h.places.trans (Decimal.exponent_le_round precision v.flip)

/-- The opposite of what a literal spells can be stored as well. -/
theorem Numeral.opposite_stored (n : Numeral) (h : n.number.Stored) :
    n.number.opposite.Stored := by
  unfold number at h ⊢
  by_cases hword : n.fraction = none ∧ (n.mantissa : Int) ≤ maxWord
  · rw [if_pos hword, Number.opposite]
    refine .ratio (q := (-n.mantissa : Int)) ⟨?_, rfl⟩
    have hm := hword.2
    rw [maxWord] at hm
    simp [isWord, maxWord]
    omega
  · rw [if_neg hword] at h ⊢
    cases h with
    | decimal hv => exact .decimal hv.negate .exact

/-! ## Terms -/

open Term Leaves

theorem Number.minusOne_stored : minusOne.Stored := .ratio (q := -1) ⟨rfl, rfl⟩

theorem Number.half_stored : (Number.ratio 1 2).Stored := by
  have hhalf : Number.ratio 1 2 = ofRat ((1 : Int) / (2 : Int)) := ratio_eq_ofRat (by decide) rfl
  rw [hhalf]
  exact .ratio ⟨by decide +kernel, by decide +kernel⟩

/-- The opposite of a term is made of what the term is made of, and minus one. -/
theorem Term.in_typed_negate {t : Term} (h : typed.In t) : typed.In t.negate := by
  refine in_apply .product fun u hu => ?_
  rcases List.mem_cons.mp hu with rfl | hu
  · exact in_number Number.minusOne_stored
  · rw [List.mem_singleton.mp hu]
    exact h

/-- An operation on two terms is made of what they are made of. -/
theorem Term.in_typed_pair (op : Operation) {t u : Term} (ht : typed.In t) (hu : typed.In u) :
    typed.In (op.apply [t, u]) := by
  refine in_apply op fun v hv => ?_
  rcases List.mem_cons.mp hv with rfl | hv
  · exact ht
  · rw [List.mem_singleton.mp hv]
    exact hu

/-- The term of an operator is made of what the terms of its operands are made of, and minus one. -/
theorem Expr.in_typed_binary (op : BinaryOp) {a b : Expr} (ha : typed.In a.toTerm)
    (hb : typed.In b.toTerm) : typed.In (Expr.binary op a b).toTerm := by
  cases op with
  | add => exact in_typed_pair .sum ha hb
  | subtract => exact in_typed_pair .sum ha (in_typed_negate hb)
  | multiply => exact in_typed_pair .product ha hb
  | divide =>
    exact in_typed_pair .product ha (in_power hb (in_number Number.minusOne_stored))

/-- Each argument of a call stands for the row at its place. -/
theorem exists_row_of_argument {args : List Row} {es : List Expr} (len : args.length = es.length)
    {e : Expr} (he : e ∈ es) : ∃ row ∈ args, (row, e) ∈ args.zip es := by
  obtain ⟨k, hk, rfl⟩ := List.getElem_of_mem he
  have hk' : k < (args.zip es).length := by
    rw [List.length_zip, len, Nat.min_self]
    exact hk
  refine ⟨args[k], List.getElem_mem _, ?_⟩
  rw [← List.getElem_zip (h := hk')]
  exact List.getElem_mem hk'

/-- A row that can be typed makes a term that is made of what can be typed. -/
theorem Derives.in_typed {l : Level} {row : Row} {e : Expr} (h : Derives l row e)
    (ht : row.Typed) : typed.In e.toTerm := by
  induction h with
  | literal n inRange => exact in_number (n.number_stored inRange)
  | «variable» name =>
    have hname : IsLetter name := (ht (.var name) (by simp)).here
    exact ⟨hname, fun u hu => by cases hu⟩
  | sqrt _ ih =>
    have hinner := (ht _ (List.mem_singleton_self _)).inside _ (List.mem_singleton_self _)
    exact in_power (ih hinner) (in_number Number.half_stored)
  | parentheses _ ih =>
    exact ih ((ht _ (List.mem_singleton_self _)).inside _ (List.mem_singleton_self _))
  | fraction _ _ iha ihb =>
    have hinside := (ht _ (List.mem_singleton_self _)).inside
    exact Expr.in_typed_binary .divide (iha (hinside _ (by simp [Item.slots])))
      (ihb (hinside _ (by simp [Item.slots])))
  | @call f args es len _ ih =>
    have hitem := ht _ (List.mem_singleton_self _)
    have hlen : args.length = f.arity := hitem.here
    rw [Expr.toTerm, Expr.toTerms_eq_map]
    refine ⟨?_, fun u hu => ?_⟩
    · change (es.map Expr.toTerm).length = f.arity
      rw [List.length_map, ← len, hlen]
    · obtain ⟨e, he, rfl⟩ := List.mem_map.mp hu
      obtain ⟨row, hrow, hpair⟩ := exists_row_of_argument len he
      exact ih _ hpair (hitem.inside row hrow)
  | bare _ ih => exact ih ht
  | power _ _ ihb ihe =>
    refine in_power (ihb fun i hi => ht i (by simp [hi])) (ihe ?_)
    exact (ht (.power _) (by simp)).inside _ (List.mem_singleton_self _)
  | @signed k row e h ih =>
    have he := ih fun i hi => ht i (by simp [hi])
    -- an odd number of minuses negates a literal, and multiplies everything else by minus one
    by_cases hodd : k % 2 = 1
    · rw [if_pos hodd]
      cases e with
      | number x =>
        obtain ⟨n, -, rfl⟩ := h.number_eq (Or.inr rfl) rfl
        exact in_number (n.opposite_stored he.number)
      | _ => exact Expr.in_typed_binary .multiply (in_number Number.minusOne_stored) he
    · rw [if_neg hodd]
      exact he
  | alone _ ih | single _ ih | lone _ ih => exact ih ht
  | juxtaposed _ _ _ _ iha ihb =>
    exact Expr.in_typed_binary .multiply (iha fun i hi => ht i (by simp [hi]))
      (ihb fun i hi => ht i (by simp [hi]))
  | @multiplied op _ _ _ _ _ _ _ iha ihb | @added op _ _ _ _ _ _ _ iha ihb =>
    exact Expr.in_typed_binary op (iha fun i hi => ht i (by simp [hi]))
      (ihb fun i hi => ht i (by simp [hi]))

/-! ## Simplified terms -/

/-- Simplifying what comes from text gives a term that is made of what can be typed, and settled. -/
theorem Expr.simplify_typed {s : String} {e : Expr} {r : Reduced} (he : ofText s = .ok e)
    (hr : e.toTerm.simplify = .ok r) : typed.In r.term ∧ Settled r.term := by
  obtain ⟨row, hrow, he⟩ := Outcome.bind_eq_ok.mp he
  obtain ⟨sorted, hsorted, hr⟩ := Outcome.bind_eq_ok.mp hr
  have hin := ((understood row).of_ok he).in_typed ((Row.ofText_typed s).of_ok hrow)
  have hsort : typed.In sorted := hin.flatten.sort.of_ok hsorted
  refine ⟨(typed_closed.reduce trivial sorted hsort).of_ok hr, ?_⟩
  exact ((reduce_normal ((sort_sorted _).of_ok hsorted).partsSorted).of_ok hr).settled

end Mathpad
