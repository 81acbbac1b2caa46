import Mathpad.Calculator
import Mathpad.Proofs.Evaluation
import Mathpad.Proofs.Notations
import Mathpad.Proofs.Termination

/-!
# Every text has an answer

Whatever text the calculator is asked about, the answer is a report. If something is wrong
then the report says so, with a complaint about the text, about the row that it spells or
about arithmetic; no other fault comes up while a text is read, drawn, evaluated, reduced
or while its value is shown.
-/
set_option autoImplicit false

namespace Mathpad

/-! ## Faults that are the user's -/

/-- The fault is about the text, about the row that it spells or about arithmetic. -/
def Fault.IsGuarded (f : Fault) : Prop := f.IsInput ∨ f.IsUpgrade ∨ f.IsMaths

/-- There is nothing to complain about, or the complaint is about the text, the row that it
spells or arithmetic. -/
inductive Report.Guarded (r : Report) : Prop
  | good (h : r.isOk = true)
  | input (e : InputError) (h : r.complaint = some ⟨e.message, e.code⟩)
  | upgrade (e : UpgradeError) (h : r.complaint = some ⟨e.message, e.code⟩)
  | maths (e : MathsError) (h : r.complaint = some ⟨e.message, e.code⟩)

namespace Report

/-- The computation gives a report that is guarded, and has no fault. -/
def Given (o : Outcome Report) : Prop := Meets o Guarded fun _ => False

/-- A fault that is the user's becomes a complaint. -/
theorem ofOutcome_given {o : Outcome Report} {mark : Report → Report}
    (ho : Meets o Guarded Fault.IsGuarded)
    (hmark : ∀ c, (mark (ofComplaint c)).complaint = some c) : Given (ofOutcome o mark) := by
  cases o with
  | ok r => exact ho
  | error f =>
    rcases ho with ⟨e, rfl⟩ | ⟨e, rfl⟩ | ⟨e, rfl⟩
    · exact .input e (hmark _)
    · exact .upgrade e (hmark _)
    · exact .maths e (hmark _)

end Report

/-! ## Reduction -/

namespace Term

/-- The numbers of a term that was typed have denominators. -/
theorem Leaves.In.hasDenominators {t : Term} (h : typed.In t) : HasDenominators t := by
  refine in_numbersOnly_iff.mp (h.imp fun u hu => ?_)
  cases u with
  | number x =>
    cases hu with
    | ratio => exact Number.hasDenominator_ofRat _
    | decimal => trivial
  | _ => trivial

/-- A term that is made of what can be typed is simplified, or there is an arithmetical reason
why not. -/
theorem simplify_isMaths {t : Term} (h : typed.In t) :
    Meets t.simplify (fun _ => True) Fault.IsMaths := by
  refine h.flatten.sort.bind fun sorted hsorted => ?_
  -- besides arithmetic, reduction could only refuse to go on, which it never does
  have hreduce := reduce_keepsDenominators hsorted.hasDenominators
  cases hend : sorted.reduce with
  | ok r => trivial
  | error f =>
    rcases hreduce.of_error hend with hf | rfl
    · exact hf
    · exact absurd hend (reduce_ne_endless sorted)

end Term

/-! ## Drawings -/

/-- An expression that was read can be drawn, if the names of variables can. -/
theorem Expr.ReadHere.admits {P : Block → Prop}
    (hvar : ∀ (name : String) (level : Int), P (Block.ofGlyph Renderer.ascii level (.var name)))
    {e : Expr} (h : e.ReadHere) : Block.AdmitsNode P e := by
  cases e with
  | number x =>
    cases x with
    | ratio n d =>
      obtain ⟨hn, rfl⟩ := h
      exact ⟨hn, by decide⟩
    | decimal v a => exact h
  | var name => exact hvar name
  | call f es =>
    have hlength : es.length = f.arity := h
    have harity : 0 < f.arity := by cases f <;> decide
    exact fun hnil => absurd hnil (List.length_pos_iff.mp (hlength ▸ harity))
  | sqrt | parentheses | power | binary => trivial

namespace Calculator

open Report

/-! ## Answers -/

/-- What is said about the expressions that can be read is said about a text, unless there is no
expression. -/
theorem withExpr_meets {H : Expr → Prop} {Q : Report → Prop} {text : String}
    {answer : Expr → Outcome Report} (hread : Meets (Expr.ofText text) H Fault.IsGuarded)
    (h : ∀ e, H e → Meets (answer e) Q fun _ => False) (hQ : ∀ r : Report, r.Guarded → Q r) :
    Meets (withExpr text answer) Q fun _ => False := by
  unfold withExpr
  cases htext : Expr.ofText text with
  | ok e => exact h e (hread.of_ok htext)
  | error f =>
    have hgiven : Given (ofOutcome (.error f) id) :=
      ofOutcome_given (hread.of_error htext) fun _ => rfl
    exact hgiven.imp hQ

/-- Reading has faults of two of the three kinds, and both are complained about. -/
theorem withExpr_given {text : String} {answer : Expr → Outcome Report}
    (h : ∀ e, e.Readable → Given (answer e)) : Given (withExpr text answer) :=
  withExpr_meets ((Expr.ofText_meets text).mono (fun _ he => he.1) fun _ hf => hf.imp_right .inl) h
    fun _ hr => hr

/-- An expression that can be read can be drawn. -/
theorem draw_meets {e : Expr} (h : e.Readable) :
    Meets (draw e none) (fun _ => True) fun _ => False := by
  have hadmits : e.disambiguate.Everywhere
      (Block.AdmitsNode fun b => b.Solid ∧ ∀ g ∈ b.glyphs, g.Standing) :=
    h.disambiguate.imp fun e he => he.admits fun _ level =>
      ⟨Block.ofGlyph_solid level zero_le_one zero_le_one,
        List.forall_mem_singleton.mpr ⟨le_rfl, rfl⟩⟩
  refine (Block.standing_kept.ofExpr hadmits 0).bind fun b hb => ?_
  exact (hb.1.lines_meets hb.2).imp fun _ _ => trivial

/-- A value is shown with the digits that are shown unless others are asked for. -/
theorem ofValue_meets {x : Number} (h : x.Lowest) :
    Meets (ofValue shownDigits x) (fun r => r.isOk = true) fun _ => False := by
  obtain ⟨s, hs⟩ := Number.exists_decimalText h
  unfold ofValue
  rw [hs]
  exact rfl

/-- There is an answer to evaluating any text. -/
theorem evaluate_given {p : Preferences} (hfloats : p.settings.useFloats = false)
    (hdigits : p.digits = shownDigits) (text : String) : Given (evaluate p text none none) := by
  refine withExpr_given fun e he => (draw_meets he).bind fun lines _ => ?_
  have hsettings : chosenSettings p.settings none none = .ok p.settings := rfl
  rw [hsettings, ok_bind, hdigits]
  -- the drawing and the variables are added to either report, and change no complaint
  have heval := he.eval_lowest p.settings
  cases hvalue : e.eval p.settings with
  | ok x =>
    exact (ofValue_meets (heval.of_ok hvalue).denoise).bind fun _ hr => .good hr
  | error f =>
    exact ofOutcome_given (.inr (.inr ((heval.of_error hvalue).isMaths hfloats))) fun _ => rfl

theorem validate_given (text : String) : Given (validate text) :=
  withExpr_given fun _ _ => .good rfl

/-- There is an answer to simplifying any text. -/
theorem simplify_given (text : String) : Given (simplify text) := by
  refine ofOutcome_given ?_ fun _ => rfl
  have hread : Meets (Expr.ofText text) (fun e => Term.typed.In e.toTerm) Fault.IsGuarded :=
    (Expr.ofText_meets text).mono (fun _ h => h.2) fun _ h => h.imp_right .inl
  refine hread.bind fun e he => ?_
  have hsimplify : Meets e.toTerm.simplify (fun _ => True) Fault.IsGuarded :=
    (Term.simplify_isMaths he).mono (fun _ h => h) fun _ hf => .inr (.inr hf)
  exact hsimplify.bind fun r _ => .good rfl

theorem render_given (text : String) : Given (render text none none) :=
  withExpr_given fun _ he => (draw_meets he).bind fun _ _ => .good rfl

/-- Every text has a value or a complaint, is an expression or is complained about, and so on
for its reduced form and its drawing: none of the four questions leads to a fault. -/
theorem answers (text : String) :
    (∃ r, evaluate {} text none none = .ok r ∧ r.Guarded) ∧
      (∃ r, validate text = .ok r ∧ r.Guarded) ∧
      (∃ r, simplify text = .ok r ∧ r.Guarded) ∧
      ∃ r, render text none none = .ok r ∧ r.Guarded :=
  ⟨(evaluate_given rfl rfl text).exists_ok, (validate_given text).exists_ok,
    (simplify_given text).exists_ok, (render_given text).exists_ok⟩

end Calculator
end Mathpad
