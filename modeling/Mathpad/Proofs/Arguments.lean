import Mathpad.Proofs.Calls

/-!
# What the arguments of a call are imported as

The text in the parentheses of a call is joined by commas from pieces without commas of their
own, inside parentheses apart, and its arguments are the pieces that are not blank. A call is
read only if there are as many arguments as the callee takes, and each argument is a text that
could be imported by itself, as the row that the call is given for it.
-/
set_option autoImplicit false

namespace Mathpad

-- Statements about each character of a list are decided along the list.
attribute [local instance (high)] List.decidableBAll

namespace Reader

/-! ## Arguments -/

/-- The arguments in a text: the pieces between its commas, inside parentheses apart, except for
those that are blank. -/
def Given (inner : List Char) (texts : List (List Char)) : Prop :=
  ∃ pieces, pieces ≠ [] ∧ (∀ t ∈ pieces, Brackets.Nested false t) ∧
    inner = [','].intercalate pieces ∧ texts = pieces.filter fun t => !t.all Text.isBlank

/-- A call in a text is read as a call of the same callee in a row: there are as many arguments
as the callee takes, and each of them can be imported by itself, as the row in its place. -/
def Imported (call : Callee × List Char) (read : Callee × List Row) : Prop :=
  read.1 = call.1 ∧ ∃ texts, Given call.2 texts ∧ texts.length = call.1.arity ∧
    List.Forall₂ (fun t row => Row.ofText (String.ofList t) = .ok row) texts read.2

/-- Trimming leaves nothing of what is blank, and of nothing else. -/
theorem trimBlanks_eq_nil_iff {cs : List Char} :
    Text.trimBlanks cs = [] ↔ cs.all Text.isBlank = true := by
  rw [List.all_eq_true]
  constructor
  · intro h
    obtain ⟨front, back, hfront, hback, hcs⟩ := exists_trimBlanks cs
    rw [hcs, h, List.nil_append]
    intro c hc
    exact (List.mem_append.mp hc).elim (hfront c) (hback c)
  · intro h
    rw [Text.trimBlanks, Text.trim, List.dropWhile_eq_nil_iff.mpr h]
    rfl

theorem exists_given {commas : Bool} {inner : List Char}
    (h : Brackets.Nested commas inner) : ∃ texts, Given inner texts := by
  obtain ⟨pieces, hne, hpieces, hinner⟩ := h.exists_pieces
  exact ⟨_, pieces, hne, hpieces, hinner, rfl⟩

/-- The arguments are found, without the blanks around them. -/
theorem Given.arguments_eq {inner : List Char} {texts : List (List Char)} (h : Given inner texts) :
    Brackets.arguments inner = texts.map Text.trimBlanks := by
  obtain ⟨pieces, hne, hpieces, rfl, rfl⟩ := h
  rw [Brackets.arguments, Brackets.Nested.cutAtCommas_intercalate hpieces hne, List.filter_map]
  congr 1
  refine List.filter_congr fun t _ => ?_
  rw [Function.comp_apply, Bool.eq_iff_iff, decide_eq_true_iff, ne_eq, trimBlanks_eq_nil_iff]
  simp

/-- A piece between commas is a part of the text. -/
theorem infix_intercalate {pieces : List (List Char)} {t : List Char} (h : t ∈ pieces) :
    t <:+: [','].intercalate pieces := by
  induction pieces with
  | nil => cases h
  | cons u us ih =>
    cases us with
    | nil =>
      rw [List.mem_singleton.mp h, List.intercalate_singleton]
    | cons v vs =>
      rw [List.intercalate_cons_cons, List.append_assoc]
      rcases List.mem_cons.mp h with rfl | h
      · exact (List.prefix_append _ _).isInfix
      · exact (ih h).trans ((List.suffix_append _ _).trans (List.suffix_append _ _)).isInfix

/-- An argument is part of the text, has matching parentheses, and is not blank. -/
theorem Given.of_mem {inner : List Char} {texts : List (List Char)} (h : Given inner texts)
    {t : List Char} (ht : t ∈ texts) :
    t <:+: inner ∧ Brackets.Nested true t ∧ Text.trimBlanks t ≠ [] := by
  obtain ⟨pieces, -, hpieces, rfl, rfl⟩ := h
  obtain ⟨hmem, hblank⟩ := List.mem_filter.mp ht
  refine ⟨infix_intercalate hmem, (hpieces t hmem).withCommas, fun hnil => ?_⟩
  rw [trimBlanks_eq_nil_iff.mp hnil] at hblank
  cases hblank

/-! ### Calls in arguments -/

/-- Trimming blanks takes no call away and adds none. -/
theorem calls_trimBlanks {t : List Char} (h : Brackets.Nested true t) :
    calls (Text.trimBlanks t) = calls t := by
  have hletters : ∀ blanks : List Char, (∀ c ∈ blanks, Text.isBlank c = true) →
      ∀ c ∈ blanks, c.isAlpha = false := fun blanks hb c hc => isAlpha_of_isBlank (hb c hc)
  obtain ⟨front, back, hfront, hback, ht⟩ := exists_trimBlanks t
  conv_rhs => rw [ht, calls_skip (hletters front hfront),
    calls_append (nested_trimBlanks h) (stops_blanks hback),
    calls_of_no_letter (hletters back hback), List.append_nil]

/-- The calls in a text are those in the pieces between its commas. -/
theorem calls_intercalate {pieces : List (List Char)}
    (h : ∀ t ∈ pieces, Brackets.Nested false t) :
    calls ([','].intercalate pieces) = pieces.flatMap calls := by
  induction pieces with
  | nil => rfl
  | cons t ts ih =>
    have hts := ih fun u hu => h u (by simp [hu])
    match ts, hts with
    | [], _ => simp
    | u :: us, hts =>
      have hcomma : ∀ cs, calls (',' :: cs) = calls cs :=
        fun cs => calls_skip (List.forall_mem_singleton.mpr rfl) cs
      rw [List.intercalate_cons_cons, List.append_assoc, List.singleton_append,
        calls_append (h t (by simp)) (stops_cons (plain_of_mem (by decide)).2 rfl (by decide) _),
        hcomma, hts, ← List.flatMap_cons]

/-- Blank pieces have no calls. -/
theorem Given.calls_eq {inner : List Char} {texts : List (List Char)} (h : Given inner texts) :
    calls inner = texts.flatMap calls := by
  obtain ⟨pieces, -, hpieces, rfl, rfl⟩ := h
  rw [calls_intercalate hpieces]
  induction pieces with
  | nil => rfl
  | cons t ts ih =>
    rw [List.flatMap_cons, ih fun u hu => hpieces u (by simp [hu]), List.filter_cons]
    by_cases hblank : t.all Text.isBlank = true
    · have hnone : calls t = [] := calls_of_no_letter fun c hc =>
        isAlpha_of_isBlank (List.all_eq_true.mp hblank c hc)
      rw [if_neg (by simp [hblank]), hnone]
      rfl
    · rw [if_pos (by simp [hblank]), List.flatMap_cons]

/-! ## Texts that are left as they are by cleaning -/

theorem withCarets_eq_self {cs : List Char} (h : ¬ ['*', '*'] <:+: cs) : withCarets cs = cs := by
  induction cs with
  | nil => rfl
  | cons c cs ih =>
    rw [List.infix_cons_iff, not_or] at h
    rw [withCarets_cons, ih h.2]
    rintro rfl hhead
    obtain ⟨ds, rfl⟩ := List.head?_eq_some_iff.mp hhead
    exact h.1 ⟨ds, rfl⟩

/-- No two stars are left next to each other. -/
theorem no_stars_withCarets (cs : List Char) : ¬ ['*', '*'] <:+: withCarets cs := by
  have hhead : ∀ cs : List Char, (withCarets cs).head? = some '*' → cs.head? = some '*' := by
    intro cs hcs
    induction cs using withCarets.induct with
    | case1 cs => cases hcs
    | case2 c cs hstars => rwa [withCarets.eq_2 _ _ hstars] at hcs
    | case3 => cases hcs
  induction cs using withCarets.induct with
  | case1 cs ih =>
    rw [withCarets, List.infix_cons_iff, not_or]
    refine ⟨?_, ih⟩
    rintro ⟨ds, hds⟩
    cases hds
  | case2 c cs hstars ih =>
    rw [withCarets.eq_2 _ _ hstars, List.infix_cons_iff, not_or]
    refine ⟨?_, ih⟩
    rintro ⟨ds, hds⟩
    obtain ⟨rfl, htail⟩ := List.cons.inj hds
    obtain ⟨es, rfl⟩ := List.head?_eq_some_iff.mp (hhead cs (by rw [← htail]; rfl))
    exact hstars es rfl rfl
  | case3 => simp [withCarets]

theorem length_withCarets_le (cs : List Char) : (withCarets cs).length ≤ cs.length := by
  induction cs using withCarets.induct with
  | case1 cs ih =>
    rw [withCarets]
    simp only [List.length_cons]
    omega
  | case2 c cs hstars ih =>
    rw [withCarets.eq_2 _ _ hstars]
    simpa using ih
  | case3 => simp [withCarets]

/-- A text that cleaning does nothing to but trim it. -/
structure Tidy (cs : List Char) : Prop extends Matched cs where
  short : cs.length ≤ lengthLimit
  carets : ¬ ['*', '*'] <:+: cs

/-- A part of a tidy text is tidy if its parentheses match. -/
theorem Tidy.of_infix {cs part : List Char} (h : Tidy cs) (hin : part <:+: cs)
    (hm : Matched part) : Tidy part :=
  ⟨hm, hin.length_le.trans h.short, fun hstars => h.carets (hstars.trans hin)⟩

/-- What is left after trimming is a part of the text. -/
theorem infix_trimBlanks (cs : List Char) : Text.trimBlanks cs <:+: cs := by
  obtain ⟨front, back, -, -, hcs⟩ := exists_trimBlanks cs
  refine ⟨front, back, ?_⟩
  rw [List.append_assoc]
  exact hcs.symm

/-- A text is cleaned to a tidy one. -/
theorem clean_tidy (s : String) : Meets (clean s) Tidy fun _ => True := by
  have hmatched := (clean_matched s).eq_and
  have hshape : Meets (clean s) (fun cs => cs.length ≤ lengthLimit ∧ ¬ ['*', '*'] <:+: cs)
      fun _ => True := by
    unfold clean
    dsimp only
    split_ifs with hempty hlong
    · exact trivial
    · exact trivial
    · split
      · exact trivial
      · split
        · exact trivial
        · exact ⟨(length_withCarets_le _).trans (not_lt.mp hlong), no_stars_withCarets _⟩
  exact (hmatched.and hshape).mono (fun cs h => ⟨h.1.2, h.2.1, h.2.2⟩) fun _ _ => trivial

/-- A tidy text is read as it stands, apart from blanks around it. -/
theorem Tidy.ofText_eq {cs : List Char} (h : Tidy cs) (hne : Text.trimBlanks cs ≠ []) :
    Row.ofText (String.ofList cs) =
      readRow (Text.trimBlanks cs).length (Text.trimBlanks cs) := by
  have htrim : Tidy (Text.trimBlanks cs) := h.of_infix (infix_trimBlanks cs) h.toMatched.trimBlanks
  have hclean := clean_ofList rfl hne htrim.short htrim.allowed htrim.nested
    (withCarets_eq_self htrim.carets)
  rw [Row.ofText, hclean, ok_bind]

theorem Given.tidy {inner : List Char} {texts : List (List Char)} (h : Given inner texts)
    (htidy : Tidy inner) {t : List Char} (ht : t ∈ texts) : Tidy t := by
  obtain ⟨hin, hnested, -⟩ := h.of_mem ht
  exact htidy.of_infix hin ⟨hnested, fun c hc => htidy.allowed c (hin.subset hc)⟩

/-- The arguments of a call are imported one by one. -/
theorem Given.readRows_eq {inner : List Char} {texts : List (List Char)} (h : Given inner texts)
    (htidy : Tidy inner) : readRows (Brackets.arguments inner) =
      texts.mapM fun t => Row.ofText (String.ofList t) := by
  rw [readRows_eq_mapM, h.arguments_eq, List.mapM_map]
  exact mapM_congr fun t ht => ((h.tidy htidy ht).ofText_eq (h.of_mem ht).2.2).symm

end Reader
end Mathpad
