import Mathpad.Console.Basic
import Mathpad.Proofs.Curves
import Mathpad.Proofs.Windows

/-!
# What ends a conversation

Every command has an answer, if only a complaint, with two exceptions among those that leave files
alone. A plot has none if a quotation in its line is not closed or nothing follows a backslash. And a
script of keys has none if the cursor that it leaves is cut off by both edges of the window, which can
show no part of the session then. Nobody guards against the two faults, so that they end the
conversation (`Console.Fatal`).

That nothing else does is carried from line to line by the session, which stays watched: every command
that is answered leaves a watched session, and the first one is empty and watched.
-/
set_option autoImplicit false

namespace Mathpad

/-- A watched session can be drawn in its window. -/
theorem Session.Watched.lines_meets {size : Area} {s : Session} (h : s.Watched size) :
    Meets (s.lines true) (fun _ => True) fun _ => False := by
  obtain ⟨b, -, hb, hproper, -⟩ := exists_layout h.items h.cursor
  obtain ⟨v, hv, -⟩ := h.settled.window
  have hlines : s.lines true = b.lines (some v) := by
    rw [lines, if_pos rfl, hb, hv, ok_bind]
  rw [hlines]
  exact (hproper.1.draw_window hproper.2 v).imp fun _ _ => trivial

namespace Console

variable {p : Preferences} {s : Setup} {c : Console} {size : Area}

/-! ## Words -/

/-- Only at the end of a line there can be something wrong with it. -/
theorem scanWords_meets (scan : Scan) (word cs : List Char) :
    Meets (scanWords scan word cs) (fun _ => True) fun f => f = .mishap .unclosedQuote := by
  fun_induction scanWords scan word cs with
  | case1 | case2 => trivial
  | case3 => rfl
  | case6 _ _ _ _ ih => exact ih.bind fun _ _ => trivial
  | _ => assumption

/-! ## Commands -/

/-- An action on the session leaves everything else on the console as it is. -/
theorem ensures_onSession {α : Type} {action : Editing α} {Q : α → Console → Prop}
    {E : Fault → Console → Prop} :
    Ensures (onSession action) c Q E ↔
      Ensures action c.session (fun a t => Q a { c with session := t })
        fun f t => E f { c with session := t } := by
  have hrun : Id.run ((onSession action).run.run c) =
      ((Id.run (action.run.run c.session)).1,
        { c with session := (Id.run (action.run.run c.session)).2 }) := by
    show Id.run (((liftM (Id.run (action.run.run c.session)).1 : Working α)).run.run
      { c with session := (Id.run (action.run.run c.session)).2 }) = _
    cases (Id.run (action.run.run c.session)).1 <;> rfl
  unfold Ensures
  rw [hrun]
  rcases Id.run (action.run.run c.session) with ⟨f | a, t⟩ <;> exact Iff.rfl

/-- The command saves or loads a session. -/
def Command.usesFiles : Command → Bool
  | .save _ | .load _ => true
  | _ => false

/-- The command, given in the session, leads to a fault that nobody guards against. -/
inductive Fatal (settings : EvalSettings) (s : Session) : Command → Fault → Prop
  | quotation {line : String} (h : words line = .error (.mishap .unclosedQuote)) :
    Fatal settings s (.plot line) (.mishap .unclosedQuote)
  | cut {script : String}
    (h : Ensures (Session.run settings script) s (fun _ t => t.Cut) fun _ t => t.Cut) :
    Fatal settings s (.keys script) (.breach .cursorTooTall)

/-- The work leads from the console to one with a watched session, and has an answer or a fault that is
the user's. -/
def Answered (size : Area) (work : Working Answer) (c : Console) : Prop :=
  Ensures work c (fun _ d => d.session.Watched size) fun f d => f.IsGuarded ∧ d.session.Watched size

/-- An answer is a report that is computed from nothing on the console. -/
theorem answered_report {o : Outcome Report} (hc : c.session.Watched size)
    (ho : Meets o (fun _ => True) fun _ => False) :
    Answered size (do return .report (← o)) c := by
  obtain ⟨r, hr, -⟩ := ho.exists_ok
  exact ensures_lift_ok hr hc

theorem answered_display (hc : c.session.Watched size) : Answered size display c := by
  obtain ⟨lines, hlines, -⟩ := hc.lines_meets.exists_ok
  exact ensures_get (ensures_lift_ok hlines hc)

/-- In a watched session there is an answer to every evaluation. -/
theorem answered_evaluate (hfloats : p.settings.useFloats = false) (hdigits : p.digits = shownDigits)
    (hc : c.session.Watched size) : Answered size (evaluate p) c := by
  have hvalue := Session.evaluate_ensures p.settings (hc.items.imp Item.KeyedHere.completeHere)
  refine ensures_bind.mpr (ensures_onSession.mpr (hvalue.mono ?_ ?_))
  · rintro x t ⟨rfl, hx⟩
    rw [hdigits]
    exact answered_report hc ((Calculator.ofValue_meets hx.denoise).imp fun _ _ => trivial)
  · rintro f t ⟨rfl, hguarded | ⟨htrue, -⟩⟩
    · exact ⟨hguarded, hc⟩
    · exact absurd (hfloats.symm.trans htrue) Bool.false_ne_true

/-- The session is shown after the keys, unless they leave the cursor cut off. -/
theorem answered_keys (hwidth : 1 ≤ size.width) (hheight : 1 ≤ size.height)
    (hfloats : p.settings.useFloats = false) (hc : c.session.Watched size) {script : String}
    (hcommand : ∀ f, ¬Fatal p.settings c.session (.keys script) f) :
    Answered size (perform p (.keys script)) c := by
  have hrun := Session.run_keepsWatch hwidth hheight hfloats script c.session hc
  have hreflect := Ensures.reflect (m := Session.run p.settings script) (s := c.session)
    (Q := fun _ t => t.Cut) (E := fun _ t => t.Cut)
  refine ensures_bind.mpr (ensures_onSession.mpr ((hrun.and hreflect).mono ?_ ?_))
  · rintro _ t ⟨ht, -⟩
    exact answered_display ht
  · rintro f t ⟨⟨hf, ht⟩ | ⟨-, ht⟩, hcut⟩
    · exact ⟨hf, ht⟩
    · exact absurd (.cut (hcut ht)) (hcommand _)

/-- There is a curve, or something is said about why there is none, if the line has words. -/
theorem answered_plot (hfloats : p.settings.useFloats = false) (hc : c.session.Watched size)
    {line : String} (hcommand : ∀ f, ¬Fatal p.settings c.session (.plot line) f) :
    Answered size (plot p line) c := by
  cases hwords : words line with
  | error f =>
    obtain rfl : f = .mishap .unclosedQuote :=
      (scanWords_meets .between [] line.toList).of_error hwords
    exact absurd (.quotation hwords) (hcommand _)
  | ok texts =>
    refine ensures_lift_ok hwords ?_
    rcases texts with _ | ⟨text, _ | ⟨parameter, rest⟩⟩
    · exact hc
    · exact answered_report hc (Calculator.plot_meets hfloats text "x")
    · exact answered_report hc (Calculator.plot_meets hfloats text parameter)

/-- Every command that leaves files alone is answered, unless it is bound to fail. -/
theorem answered_perform (hwidth : 1 ≤ size.width) (hheight : 1 ≤ size.height)
    (hfloats : p.settings.useFloats = false) (hdigits : p.digits = shownDigits)
    (hc : c.session.Watched size) {command : Command} (hfiles : command.usesFiles = false)
    (hcommand : ∀ f, ¬Fatal p.settings c.session command f) :
    Answered size (perform p command) c := by
  cases command with
  | nothing | quit | help | unknown => exact hc
  | keys => exact answered_keys hwidth hheight hfloats hc hcommand
  | display => exact answered_display hc
  | evaluate => exact answered_evaluate hfloats hdigits hc
  | clear =>
    have hclear := Session.clear_keepsWatch hwidth hheight c.session hc
    exact ensures_bind.mpr (ensures_onSession.mpr (ensures_modify.mpr (ensures_modify.mp hclear)))
  | save | load => cases hfiles
  | simplify text =>
    exact answered_report hc ((Calculator.simplify_given text).imp fun _ _ => trivial)
  | plot => exact answered_plot hfloats hc hcommand
  | expression text =>
    exact answered_report hc ((Calculator.evaluate_given hfloats hdigits text).imp fun _ _ => trivial)

/-- A command that is bound to fail does so. -/
theorem Fatal.ensures (hwidth : 1 ≤ size.width) (hheight : 1 ≤ size.height)
    (hfloats : p.settings.useFloats = false) (hc : c.session.Watched size) {command : Command}
    {e : Fault} (h : Fatal p.settings c.session command e) :
    Ensures (perform p command) c (fun _ _ => False) fun f _ => f = e := by
  cases h with
  | quotation hwords => exact ensures_lift_error hwords rfl
  | @cut script hcut =>
    have hrun := Session.run_keepsWatch hwidth hheight hfloats script c.session hc
    refine ensures_bind.mpr (ensures_onSession.mpr ((hrun.and hcut).mono ?_ ?_))
    · exact fun _ _ ht => absurd ht.2 ht.1.settled.not_cut
    · rintro f t ⟨⟨-, ht⟩ | ⟨rfl, -⟩, hcut⟩
      · exact absurd hcut ht.settled.not_cut
      · rfl

/-! ## Lines -/

/-- Work with an answer or a fault of the user's leads to the next line. -/
theorem Answered.conclude {work : Working Answer} (h : Answered size work c) (form : Form) :
    ∃ d printed, conclude form c work = .next d printed ∧ d.session.Watched size := by
  unfold Answered Ensures at h
  rcases hend : Id.run (work.run.run c) with ⟨f | answer, d⟩ <;> rw [hend] at h
  · have hconclude : ∀ k, f.complaint? = some k → Console.conclude form c work =
        .next d ((Report.ofComplaint k).print form) := by
      intro k hk
      unfold Console.conclude
      rw [hend]
      dsimp only
      rw [hk]
    rcases h with ⟨⟨k, rfl⟩ | ⟨k, rfl⟩ | ⟨k, rfl⟩, hd⟩ <;> exact ⟨d, _, hconclude _ rfl, hd⟩
  · unfold Console.conclude
    rw [hend]
    exact ⟨d, _, rfl, h⟩

/-- Work that fails with a fault for which there is no complaint makes the console fail. -/
theorem conclude_of_fault {work : Working Answer} {e : Fault} (he : e.complaint? = none)
    (h : Ensures work c (fun _ _ => False) fun f _ => f = e) (form : Form) :
    conclude form c work = .fail e := by
  unfold Ensures at h
  unfold conclude
  rcases hend : Id.run (work.run.run c) with ⟨f | answer, d⟩ <;> rw [hend] at h
  · obtain rfl := h
    dsimp only
    rw [he]
  · exact h.elim

/-- A fatal fault is one for which there is no complaint. -/
theorem Fatal.complaint? {settings : EvalSettings} {session : Session} {command : Command} {e : Fault}
    (h : Fatal settings session command e) : e.complaint? = none := by
  cases h <;> rfl

theorem obey_of_ne_quit {command : Command} (h : command ≠ .quit) :
    obey s c command = conclude s.form c (perform s.preferences command) := by
  rw [obey]
  exact h

section
variable (hwidth : 1 ≤ size.width) (hheight : 1 ≤ size.height)
  (hfloats : s.preferences.settings.useFloats = false) (hc : c.session.Watched size)
include hwidth hheight hfloats hc

/-- A fatal command makes the console fail. -/
theorem Fatal.step {line : String} {e : Fault}
    (h : Fatal s.preferences.settings c.session (Command.ofLine line) e) :
    step s c line = .fail e := by
  have hquit : Command.ofLine line ≠ .quit := by
    intro hquit
    rw [hquit] at h
    cases h
  unfold Console.step
  rw [obey_of_ne_quit hquit]
  exact conclude_of_fault h.complaint? (h.ensures hwidth hheight hfloats hc) s.form

variable (hdigits : s.preferences.digits = shownDigits) {line : String}
  (hfiles : (Command.ofLine line).usesFiles = false)
include hdigits hfiles

/-- A line leads to the next one or away from the console, unless its command is bound to fail. -/
theorem step_of_not_fatal
    (hline : ∀ f, ¬Fatal s.preferences.settings c.session (Command.ofLine line) f) :
    (∃ printed, step s c line = .leave printed) ∨
      ∃ d printed, step s c line = .next d printed ∧ d.session.Watched size := by
  unfold step
  by_cases hquit : Command.ofLine line = .quit
  · rw [hquit]
    exact .inl ⟨_, rfl⟩
  · rw [obey_of_ne_quit hquit]
    exact .inr ((answered_perform hwidth hheight hfloats hdigits hc hfiles hline).conclude s.form)

/-- In a watched session a line leads to a fault if its command is bound to have it. -/
theorem step_fails_iff {e : Fault} : step s c line = .fail e ↔
    Fatal s.preferences.settings c.session (Command.ofLine line) e := by
  refine ⟨fun hfail => ?_, Fatal.step hwidth hheight hfloats hc⟩
  by_cases hfatal : ∃ f, Fatal s.preferences.settings c.session (Command.ofLine line) f
  · obtain ⟨f, hf⟩ := hfatal
    cases hfail.symm.trans (hf.step hwidth hheight hfloats hc)
    exact hf
  · rcases step_of_not_fatal hwidth hheight hfloats hc hdigits hfiles (not_exists.mp hfatal) with
      ⟨printed, h⟩ | ⟨d, printed, h, -⟩ <;> cases hfail.symm.trans h

/-- A line that leads to the next one leaves a watched session. -/
theorem watched_of_step {d : Console} {printed : String} (h : step s c line = .next d printed) :
    d.session.Watched size := by
  have hline : ∀ f, ¬Fatal s.preferences.settings c.session (Command.ofLine line) f := by
    intro f hf
    cases h.symm.trans (hf.step hwidth hheight hfloats hc)
  rcases step_of_not_fatal hwidth hheight hfloats hc hdigits hfiles hline with
    ⟨printed', h'⟩ | ⟨d', printed', h', hd⟩ <;> cases h.symm.trans h'
  exact hd

end

/-! ## Conversations -/

/-- The lines lead from one console to the other. -/
inductive Reaches (s : Setup) : Console → List String → Console → Prop
  | here {c : Console} : Reaches s c [] c
  | step {c d e : Console} {line printed : String} {lines : List String}
    (hline : Console.step s c line = .next d printed) (hlines : Reaches s d lines e) :
    Reaches s c (line :: lines) e

/-- What holds where a line is reached holds at the first line or where a later one is reached. -/
theorem exists_reached_cons {P : Console → String → Prop} {line : String} {lines : List String} :
    (∃ before line' after d, line :: lines = before ++ line' :: after ∧ Reaches s c before d ∧
        P d line') ↔
      P c line ∨ ∃ d printed, Console.step s c line = .next d printed ∧
        ∃ before line' after e, lines = before ++ line' :: after ∧ Reaches s d before e ∧
          P e line' := by
  constructor
  · rintro ⟨before, line', after, d, hlines, hreaches, hP⟩
    cases hreaches with
    | here =>
      cases hlines
      exact .inl hP
    | step hline hreaches =>
      cases hlines
      exact .inr ⟨_, _, hline, _, _, _, _, rfl, hreaches, hP⟩
  · rintro (hP | ⟨d, printed, hline, before, line', after, e, rfl, hreaches, hP⟩)
    · exact ⟨[], line, lines, c, rfl, .here, hP⟩
    · exact ⟨line :: before, line', after, e, rfl, .step hline hreaches, hP⟩

/-- A conversation ends with the fault of a line that is reached. -/
theorem converse_fails_iff {lines : List String} {e : Fault} : (converse s c lines).2 = some e ↔
    ∃ before line after d, lines = before ++ line :: after ∧ Reaches s c before d ∧
      step s d line = .fail e := by
  induction lines generalizing c with
  | nil => simp [converse]
  | cons line lines ih =>
    rw [exists_reached_cons, converse]
    cases hstep : step s c line with
    | next d printed => simp [ih]
    | leave printed => simp
    | fail f => simp

/-- The session stays watched through lines that use no files. -/
theorem Reaches.watched (hwidth : 1 ≤ size.width) (hheight : 1 ≤ size.height)
    (hfloats : s.preferences.settings.useFloats = false) (hdigits : s.preferences.digits = shownDigits)
    {lines : List String} {d : Console} (h : Reaches s c lines d)
    (hfiles : ∀ line ∈ lines, (Command.ofLine line).usesFiles = false)
    (hc : c.session.Watched size) : d.session.Watched size := by
  induction h with
  | here => exact hc
  | step hline hlines ih =>
    obtain ⟨hfirst, hrest⟩ := List.forall_mem_cons.mp hfiles
    exact ih hrest (watched_of_step hwidth hheight hfloats hc hdigits hfirst hline)

/-- A conversation that leaves files alone ends with a fault if it reaches a line whose command is
bound to have it, and only then. -/
theorem conversation_fails_iff (hfloats : s.preferences.settings.useFloats = false)
    (hdigits : s.preferences.digits = shownDigits) {lines : List String}
    (hfiles : ∀ line ∈ lines, (Command.ofLine line).usesFiles = false) (e : Fault) :
    (converse s {} lines).2 = some e ↔
      ∃ before line after d, lines = before ++ line :: after ∧ Reaches s {} before d ∧
        Fatal s.preferences.settings d.session (Command.ofLine line) e := by
  have hfirst : ({} : Console).session.Watched ⟨40, 8⟩ :=
    Session.watched_empty (by decide) (by decide)
  rw [converse_fails_iff]
  refine exists₄_congr fun before line after d => and_congr_right fun hlines =>
    and_congr_right fun hreaches => ?_
  subst hlines
  obtain ⟨hbefore, hrest⟩ := List.forall_mem_append.mp hfiles
  have hd := hreaches.watched (by decide) (by decide) hfloats hdigits hbefore hfirst
  exact step_fails_iff (by decide) (by decide) hfloats hd hdigits (hrest line List.mem_cons_self)

theorem conversation_fails_iff_quotation :
    (∀ line ∈ [":plot 'x"], (Command.ofLine line).usesFiles = false) ∧
      (converse {} {} [":plot 'x"]).2 = some (.mishap .unclosedQuote) := by
  have hfiles : ∀ line ∈ [":plot 'x"], (Command.ofLine line).usesFiles = false := by decide +kernel
  have hcommand : Command.ofLine ":plot 'x" = .plot "'x" := by decide +kernel
  refine ⟨hfiles, (conversation_fails_iff rfl rfl hfiles _).mpr
    ⟨[], ":plot 'x", [], {}, rfl, .here, ?_⟩⟩
  rw [hcommand]
  exact .quotation (by decide +kernel)

/-- Two conversations of one line that end with a fault: a plot with an open quotation, and keys that
build up nested fractions and leave them where the cursor is higher than the window. -/
theorem quotation_and_cut_fail :
    (converse {} {} [":plot 'x"]).2 = some (.mishap .unclosedQuote) ∧
      (converse {} {} [":keys <frac><frac><up><frac><frac><frac>" ++
        "<right><right><down><right><right><right>"]).2 = some (.breach .cursorTooTall) := by
  decide +kernel

end Console
end Mathpad
