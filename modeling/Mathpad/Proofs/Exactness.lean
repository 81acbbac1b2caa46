import Mathpad.Proofs.ClosedEvaluation
import Mathpad.Proofs.Monomials

/-!
# Exact arithmetic

Sums, products, quotients and whole powers of fractions in lowest terms. Each is `checked` of
its value: the fraction in lowest terms that the rational numbers say, or an overflow when that
fraction has a part that is no word. The arithmetic in between is unbounded, so nothing that
fits is lost on the way.
-/
set_option autoImplicit false

namespace Mathpad.Number

/-- A fraction in lowest terms is that of its value. -/
theorem InLowestTerms.eq_ofRat {x : Number} (h : x.InLowestTerms) : x = ofRat x.value := by
  obtain ⟨q, rfl⟩ := h.exists_ofRat
  rw [value_ofRat]

/-- A fraction in lowest terms that is made of words is the checked one of its value. -/
theorem InLowestTerms.checked_value {n d : Int} (h : InLowestTerms (.ratio n d))
    (hn : isWord n = true) (hd : isWord d = true) {q : ℚ} (hq : q = n / d) :
    checked q = .ok (.ratio n d) := by
  have hratio : Number.ratio n d = ofRat q := by rw [hq, ratio_eq_ofRat h.1 h.2]
  obtain ⟨rfl, rfl⟩ := ratio.inj hratio
  exact checked_of_fits ⟨hn, hd⟩

/-- Arithmetic on fractions in lowest terms is exact and overflows only when it must. The
quotient by zero and the inverse of zero are the only other failures; the zeroth power of zero
is one. -/
theorem arithmetic_exact {x y : Number} (hx : x.InLowestTerms) (hy : y.InLowestTerms)
    (e : Int) :
    x.add y = checked (x.value + y.value) ∧
    x.mul y = checked (x.value * y.value) ∧
    x.div y = (if y.value = 0 then failMaths .divisionByZero
      else checked (x.value / y.value)) ∧
    x.powInt e = (if x.value = 0 ∧ e < 0 then failMaths .divisionByZero
      else checked (x.value ^ e)) := by
  rw [hx.eq_ofRat, hy.eq_ofRat]
  simp only [value_ofRat]
  exact ⟨add_ofRat_eq .., mul_ofRat_eq .., div_ofRat_cases .., powInt_ofRat_cases ..⟩

/-- The sixty-third power of minus two is the least word. -/
theorem arithmetic_exact_least_word :
    InLowestTerms (.ratio (-2) 1) ∧ InLowestTerms (.ratio 1 3) ∧
    (ratio (-2) 1).add (.ratio 1 3) = .ok (.ratio (-5) 3) ∧
    (ratio (-2) 1).mul (.ratio 1 3) = .ok (.ratio (-2) 3) ∧
    (ratio (-2) 1).div (.ratio 1 3) = .ok (.ratio (-6) 1) ∧
    (ratio (-2) 1).powInt 63 = .ok (.ratio (-9223372036854775808) 1) := by
  have hx : InLowestTerms (.ratio (-2) 1) := by constructor <;> decide
  have hy : InLowestTerms (.ratio 1 3) := by constructor <;> decide
  obtain ⟨hadd, hmul, hdiv, hpow⟩ := arithmetic_exact hx hy 63
  refine ⟨hx, hy, hadd.trans ?_, hmul.trans ?_, hdiv.trans ?_, hpow.trans ?_⟩
  · exact InLowestTerms.checked_value ⟨by decide, by decide⟩ rfl rfl (by norm_num [value])
  · exact InLowestTerms.checked_value ⟨by decide, by decide⟩ rfl rfl (by norm_num [value])
  · rw [if_neg (by norm_num [value])]
    exact InLowestTerms.checked_value ⟨by decide, by decide⟩ rfl rfl (by norm_num [value])
  · rw [if_neg (by norm_num)]
    exact InLowestTerms.checked_value ⟨by decide, by decide⟩ rfl rfl (by norm_num [value])

end Mathpad.Number
