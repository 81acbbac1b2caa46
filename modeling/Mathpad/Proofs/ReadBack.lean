import Mathpad.Proofs.Accuracy
import Mathpad.Proofs.Printing

/-!
# Printing and reading back

The text of a simplified term is read as an expression of the same value, if every constant
is printed such that nothing of it is lost. In general the expression has the value of the
term with the numbers that the texts of its constants are read as.
-/
set_option autoImplicit false

namespace Mathpad

open Number

/-! ## Constants -/

namespace Number

/-- The text of a number is read as that number, apart from its tag: it is a fraction, though not
with the least numerator, or a decimal that is written in full. -/
def Faithful : Number → Prop
  | ratio n _ => n ≠ -maxWord - 1
  | decimal v _ => v.WrittenInFull

/-- A decimal is read as a number of its value. -/
def KeepsDecimal (settings : EvalSettings) : Number → Prop
  | ratio .. => True
  | decimal v a => ∃ y, reread settings (decimal v a) = .ok y ∧ y.value = v.value

/-- A number that its text is faithful to is read again as itself, up to its tag. -/
theorem reread_of_faithful {x : Number} (h : x.Stored) (hx : x.WithinLiterals)
    (hf : x.Faithful) (settings : EvalSettings) :
    GivesAlike (.ok x) (reread settings x) := by
  intro z hz
  obtain rfl := Except.ok.inj hz
  cases h with
  | @ratio q hq =>
    obtain ⟨e, he, heval⟩ := spelled_ofRat hq
    exact ⟨ofRat q, (reread_eq he settings).trans (heval hf settings), .refl _⟩
  | decimal hv a =>
    obtain ⟨y, hy, -, hfull⟩ := spelled_decimal hv hx a
    refine ⟨y, (reread_eq hy settings).trans rfl, ?_⟩
    rw [hfull hf]
    exact .decimal _ a .exact

/-- A number that is written as a decimal is read again as a decimal. -/
theorem keepsDecimal {x : Number} (h : x.Stored) (hx : x.WithinLiterals)
    (settings : EvalSettings) : x.KeepsDecimal settings := by
  cases h with
  | ratio hq => exact trivial
  | decimal hv a =>
    obtain ⟨y, hy, hvalue, -⟩ := spelled_decimal hv hx a
    exact ⟨y, (reread_eq hy settings).trans rfl, hvalue⟩

end Number

/-! ## Values of a term with similar constants -/

/-- An operation does not look at the tags of its members. -/
theorem Operation.total_alike (op : Operation) {xs ys : List Number}
    (h : List.Forall₂ Alike xs ys) : GivesAlike (op.total xs) (op.total ys) := by
  have hcombine : ∀ {x x' y y' : Number}, Alike x x' → Alike y y' →
      GivesAlike (op.combine x y) (op.combine x' y') := by
    intro x x' y y' hx hy
    cases op with
    | product => exact combine_alike _ _ hx hy
    | sum => exact combine_alike _ _ hx hy
  have hfold : ∀ {xs ys : List Number}, List.Forall₂ Alike xs ys → ∀ {x y : Number}, Alike x y →
      GivesAlike (xs.foldlM op.combine x) (ys.foldlM op.combine y) := by
    intro xs ys h
    induction h with
    | nil => exact fun hxy => givesAlike_ok hxy
    | cons hz _ ih =>
      intro x y hxy
      rw [List.foldlM_cons, List.foldlM_cons]
      exact (hcombine hxy hz).bind fun w w' hw => ih hw
  cases h with
  | nil => exact .refl _
  | cons hx h => exact hfold h hx

namespace Term

variable {settings : EvalSettings} {c c' : Number → Outcome Number} {ρ : String → Number}

/-- Arguments that have their values up to tags have all of them. -/
theorem evalAll_alike {ts : List Term}
    (h : ∀ t ∈ ts, GivesAlike (t.eval settings c ρ) (t.eval settings c' ρ)) {xs : List Number}
    (hxs : evalAll settings c ρ ts = .ok xs) :
    ∃ ys, evalAll settings c' ρ ts = .ok ys ∧ List.Forall₂ Alike xs ys := by
  induction ts generalizing xs with
  | nil =>
    obtain rfl := Except.ok.inj hxs
    exact ⟨[], rfl, .nil⟩
  | cons t ts ih =>
    obtain ⟨x, hx, hxs⟩ := Outcome.bind_eq_ok.mp hxs
    obtain ⟨xs, hrest, hxs⟩ := Outcome.bind_eq_ok.mp hxs
    obtain rfl := Except.ok.inj hxs
    obtain ⟨y, hy, hxy⟩ := h t (by simp) x hx
    obtain ⟨ys, hys, hall⟩ := ih (fun u hu => h u (by simp [hu])) hrest
    refine ⟨y :: ys, ?_, .cons hxy hall⟩
    rw [evalAll, hy, ok_bind, hys]
    rfl

/-- Constants that are similar give values that are similar. -/
theorem eval_alike {t : Term} (h : AllNumbers (fun x => GivesAlike (c x) (c' x)) t) :
    GivesAlike (t.eval settings c ρ) (t.eval settings c' ρ) := by
  induction t using operation_induction with
  | number x => exact h
  | var name => exact .refl _
  | operation op ts ih =>
    intro z hz
    rw [eval_apply, ← evalAll_eq_mapM] at hz ⊢
    obtain ⟨xs, hxs, hz⟩ := Outcome.bind_eq_ok.mp hz
    obtain ⟨ys, hys, hall⟩ :=
      evalAll_alike (fun t ht => ih t ht ((allNumbers_apply op).mp h t ht)) hxs
    rw [hys, ok_bind]
    exact op.total_alike hall z hz
  | power b e ihb ihe =>
    rw [eval, eval]
    exact (ihb h.1).bind fun x x' hx => (ihe h.2).bind fun y y' hy => pow_alike hx hy
  | call f ts ih =>
    intro z hz
    obtain ⟨xs, hxs, hz⟩ := Outcome.bind_eq_ok.mp hz
    obtain ⟨ys, hys, hall⟩ := evalAll_alike (fun t ht => ih t ht (allNumbersIn_iff.mp h t ht)) hxs
    rw [eval, hys, ok_bind, ← Number.eval_alike f settings hall]
    exact ⟨z, hz, .refl z⟩

/-- The constants of a simplified term that can be read can be stored, and literals have the digits
for them. -/
theorem allNumbers_of_legible {t : Term} (ht : typed.In t) (hl : Legible t) :
    AllNumbers (fun x => x.Stored ∧ x.WithinLiterals) t := by
  rw [← in_numbersOnly_iff]
  refine (Everywhere.and ht hl).imp fun u hu => ?_
  cases u with
  | number x => exact hu
  | _ => exact trivial

end Term

/-! ## Reading back -/

open Term

/-- **The text of a simplified term is an expression again.** It has the value that the term has
with its constants replaced by what their own texts are read as, whatever the values of the
variables; if the constants are faithful, that is the value of the term itself, tags aside. Every
decimal is read as a number of the same value. -/
theorem Expr.ofText_text {s : String} {e : Expr} {r : Reduced} (he : ofText s = .ok e)
    (hr : e.toTerm.simplify = .ok r) (hlegible : r.term.Legible)
    (hshort : r.term.chars.length ≤ Reader.lengthLimit) :
    ∃ e', ofText r.term.text = .ok e' ∧
      (∀ (settings : EvalSettings) (ρ : String → Number) (v : Number),
        r.term.eval settings (Number.reread settings) ρ = .ok v →
          (e'.assign ρ).eval settings = .ok v) ∧
      (AllNumbers Number.Faithful r.term →
        ∀ (settings : EvalSettings) (ρ : String → Number) (v : Number),
          r.term.eval settings .ok ρ = .ok v →
            ∃ w, (e'.assign ρ).eval settings = .ok w ∧ v.Alike w) ∧
      ∀ settings, AllNumbers (Number.KeepsDecimal settings) r.term := by
  obtain ⟨htyped, hsettled⟩ := simplify_typed he hr
  obtain ⟨row, e', hs, hd, ha⟩ := (rendered htyped hsettled hlegible).alone
  have hnumbers := allNumbers_of_legible htyped hlegible
  refine ⟨e', hs.ofText_eq hshort hd, ha, fun hfaithful settings ρ v hv => ?_, fun settings => ?_⟩
  · have hboth := Everywhere.and (in_numbersOnly_iff.mpr hnumbers) (in_numbersOnly_iff.mpr hfaithful)
    -- each constant is read back as itself, tags aside
    have hreread : AllNumbers (fun x => GivesAlike (.ok x) (Number.reread settings x)) r.term := by
      rw [← in_numbersOnly_iff]
      refine hboth.imp fun u hu => ?_
      cases u with
      | number x => exact Number.reread_of_faithful hu.1.1 hu.1.2 hu.2 settings
      | _ => exact trivial
    obtain ⟨w, hw, hlike⟩ := eval_alike hreread v hv
    exact ⟨w, ha settings ρ w hw, hlike⟩
  · exact hnumbers.imp fun x hx => Number.keepsDecimal hx.1 hx.2 settings

/-- The reduced form of `1-x^2/2` is read back with the value `-7/2` that it has for `x = 3`. -/
theorem Expr.ofText_text_square :
    let e : Expr := .binary .subtract (.number (.ratio 1 1))
      (.binary .divide (.power (.var "x") (.number (.ratio 2 1))) (.number (.ratio 2 1)))
    let t : Term := .sum [.number (.ratio 1 1),
      .product [.number (.ratio (-1) 2), .power (.var "x") (.number (.ratio 2 1))]]
    let three : String → Number := fun _ => .ratio 3 1
    ofText "1-x^2/2" = .ok e ∧ e.toTerm.simplify = .ok ⟨t, true⟩ ∧ t.Legible ∧
      t.text = "1+(-1/2)*(x^2)" ∧ t.chars.length ≤ Reader.lengthLimit ∧
      AllNumbers Number.Faithful t ∧ t.eval {} .ok three = .ok (.ratio (-7) 2) ∧
      ∃ e', ofText t.text = .ok e' ∧
        ∃ w, (e'.assign three).eval {} = .ok w ∧ (Number.ratio (-7) 2).Alike w := by
  intro e t three
  have hnumber : ∀ n d : Int, Legible (.number (.ratio n d)) := fun n d =>
    Everywhere.number trivial
  have hlegible : t.Legible := by
    refine Everywhere.apply .sum trivial ?_
    simp only [List.forall_mem_cons, List.not_mem_nil, false_implies, implies_true, and_true]
    refine ⟨hnumber _ _, Everywhere.apply .product trivial ?_⟩
    simp only [List.forall_mem_cons, List.not_mem_nil, false_implies, implies_true, and_true]
    exact ⟨hnumber _ _, Everywhere.power ⟨rfl, rfl, rfl⟩ ⟨trivial, by simp [parts]⟩ (hnumber _ _)⟩
  have hfaithful : AllNumbers Number.Faithful t := by
    simp [t, AllNumbers, AllNumbersIn, Number.Faithful, maxWord]
  have hrow : Row.ofText "1-x^2/2" = .ok [.digit 1, .token .subtract, .var "x",
      .power [.digit 2], .token .divide, .digit 2] := by
    with_unfolding_all rfl
  have hupgrade : ofRow [.digit 1, .token .subtract, .var "x", .power [.digit 2],
      .token .divide, .digit 2] = .ok e := by
    with_unfolding_all rfl
  have hread : ofText "1-x^2/2" = .ok e := by
    rw [ofText, hrow]
    exact hupgrade
  have hsort : e.toTerm.flatten.sort = .ok (.sum [.number (.ratio 1 1),
      .product [.number (.ratio (-1) 1), .power (.number (.ratio 2 1)) (.number (.ratio (-1) 1)),
        .power (.var "x") (.number (.ratio 2 1))]]) := by
    with_unfolding_all rfl
  have hsimplify : e.toTerm.simplify = .ok ⟨t, true⟩ := by
    rw [Term.simplify, hsort]
    exact reduce_of_reduceWithin (n := 5) (by with_unfolding_all rfl)
  have htext : t.text = "1+(-1/2)*(x^2)" := by with_unfolding_all rfl
  have hshort : t.chars.length ≤ Reader.lengthLimit := by decide
  have hvalue : t.eval {} .ok three = .ok (.ratio (-7) 2) := by with_unfolding_all rfl
  obtain ⟨e', he', -, hsame, -⟩ := ofText_text hread hsimplify hlegible hshort
  exact ⟨hread, hsimplify, hlegible, htext, hshort, hfaithful, hvalue, e', he',
    hsame hfaithful {} three _ hvalue⟩

/-- The decimal `3.0` is printed without its place, so `3.0*x` is read back as `3*x`: for `x = 1/3`
that is one, and not the decimal below it. -/
theorem Expr.ofText_text_decimal :
    let third : String → Number := fun _ => .ratio 1 3
    ∃ e r e', ofText "3.0*x" = .ok e ∧ e.toTerm.simplify = .ok r ∧ r.term.text = "3*x" ∧
      ofText r.term.text = .ok e' ∧
      r.term.eval {} .ok third =
        .ok (.decimal ⟨false, 9999999999999999999999999999, -28⟩ .exact) ∧
      (e'.assign third).eval {} = .ok (.ratio 1 1) ∧
      (Number.decimal ⟨false, 9999999999999999999999999999, -28⟩ .exact).value ≠
        (Number.ratio 1 1).value := by
  intro third
  have htext : Term.text (.product [.number (.decimal ⟨false, 30, -1⟩ .exact), .var "x"]) = "3*x" := by
    with_unfolding_all rfl
  have hback : ofText "3*x" = .ok (.binary .multiply (.number (.ratio 3 1)) (.var "x")) := by
    with_unfolding_all rfl
  have hsort : (Expr.toTerm (.binary .multiply (.number (.decimal ⟨false, 30, -1⟩ .exact))
      (.var "x"))).flatten.sort =
        .ok (.product [.number (.decimal ⟨false, 30, -1⟩ .exact), .var "x"]) := by
    with_unfolding_all rfl
  refine ⟨.binary .multiply (.number (.decimal ⟨false, 30, -1⟩ .exact)) (.var "x"),
    ⟨.product [.number (.decimal ⟨false, 30, -1⟩ .exact), .var "x"], false⟩,
    .binary .multiply (.number (.ratio 3 1)) (.var "x"), ?_, ?_, htext, ?_, ?_, ?_, ?_⟩
  · with_unfolding_all rfl
  · rw [Term.simplify, hsort]
    exact reduce_of_reduceWithin (n := 3) (by with_unfolding_all rfl)
  · rw [htext, hback]
  · with_unfolding_all rfl
  · with_unfolding_all rfl
  · norm_num [Number.value, Decimal.value, Decimal.signedDigits]

end Mathpad
