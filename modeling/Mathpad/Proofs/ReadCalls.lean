import Mathpad.Proofs.Arguments

/-!
# The calls that are read

Every piece of a text is laid out in the same way: something that calls nothing by itself or
is the name that is called, the text that is left to be read inside of the piece, and what
closes it. So the calls of a text are those of its first piece followed by those of the rest,
and the row that is read has its calls in the same order.
-/
set_option autoImplicit false

namespace Mathpad

-- Statements about each character of a list are decided along the list.
attribute [local instance (high)] List.decidableBAll

namespace Reader

/-! ## Names in front of parentheses -/

/-- Letters that name nothing are not read in front of a parenthesis. -/
theorem readRow_unnamed {name blanks : List Char} (hname : ∀ c ∈ name, c.isAlpha = true)
    (hlong : 1 < name.length) (hnone : Callee.ofName? (String.ofList name) = none)
    (hblanks : ∀ c ∈ blanks, Text.isBlank c = true) (total : Nat) (after : List Char) (row : Row) :
    readRow total (name ++ (blanks ++ '(' :: after)) ≠ .ok row := by
  obtain ⟨htake, hdrop, hopen⟩ := letters_before_open hname hblanks after
  obtain ⟨c, tail, rfl⟩ := List.exists_cons_of_length_pos (by omega : 0 < name.length)
  have hletter := hname c (by simp)
  rw [List.cons_append, List.takeWhile_cons_of_pos hletter] at htake
  rw [List.cons_append, List.dropWhile_cons_of_pos hletter] at hdrop
  have hpiece : ∃ f, nextPiece total c (tail ++ (blanks ++ '(' :: after)) = .error f := by
    rw [nextPiece_letter hletter, htake, hdrop, namePiece_open (by omega) hopen, hnone]
    cases inside total after with
    | ok r => exact ⟨_, rfl⟩
    | error f => exact ⟨f, rfl⟩
  obtain ⟨f, hf⟩ := hpiece
  rw [List.cons_append, readRow_error hf]
  simp

/-- A text that goes on with a call behind its first letter is not read behind that letter. -/
theorem readRow_tail_of_call {c : Char} {cs : List Char} {callee : Callee} {inner : List Char}
    (h : BeginsWithCall (c :: cs) callee inner) (total : Nat) (row : Row) :
    readRow total cs ≠ .ok row := by
  obtain ⟨blanks, rest, hblanks, -, heq⟩ := h
  obtain ⟨d, tail, hname, -, -, htail, -⟩ := name_letters callee
  have hlong : 1 < tail.length := by
    have hlen : 3 ≤ callee.name.toList.length := by
      rcases callee with _ | _ | (_ | _ | _) <;> decide
    rw [hname, List.length_cons] at hlen
    omega
  rw [hname, List.cons_append] at heq
  obtain ⟨-, rfl⟩ := List.cons.inj heq
  exact readRow_unnamed htail hlong
    (Callee.ofName?_suffix_eq_none hname List.suffix_rfl) hblanks _ _ _

/-! ## How pieces are laid out -/

/-- A text consists of a piece and the rest: it has the text inside of the piece, the calls in it
are those of the piece, of that text and of the rest, and a piece without such text is tokens. -/
structure Laid (cs : List Char) (p : Piece) (rest : List Char) : Prop where
  parts : ∃ front back, cs = front ++ (p.text ++ (back ++ rest))
  tokens : ∀ row, p = .finished row → ∀ item ∈ row, ∃ t, item = .token t
  calls : (∃ total row, readRow total rest = .ok row) →
    Reader.calls cs = p.called ++ (Reader.calls p.text ++ Reader.calls rest)

/-- A piece that is finished. -/
theorem laid_finished {front rest : List Char} {row : Row} (h : calls (front ++ rest) = calls rest)
    (htokens : ∀ item ∈ row, ∃ t, item = .token t) :
    Laid (front ++ rest) (.finished row) rest where
  parts := ⟨front, [], rfl⟩
  tokens := by
    rintro _ ⟨⟩
    exact htokens
  calls _ := h

/-- A piece that ends in a text between parentheses. -/
theorem laid_inside {p : Piece} {rest : List Char} (hcalled : p.called = [])
    (hfinished : ∀ row, p ≠ .finished row) (h : Brackets.Nested true p.text) :
    Laid ('(' :: (p.text ++ ')' :: rest)) p rest where
  parts := ⟨['('], [')'], rfl⟩
  tokens row hp := absurd hp (hfinished row)
  calls _ := by rw [calls_parenthesized h, hcalled, List.nil_append]

/-- A call. -/
theorem laid_call (callee : Callee) {blanks inner rest : List Char}
    (hblanks : ∀ c ∈ blanks, Text.isBlank c = true) (hinner : Brackets.Nested true inner) :
    Laid (callee.name.toList ++ (blanks ++ '(' :: (inner ++ ')' :: rest))) (.call callee inner)
      rest where
  parts := ⟨callee.name.toList ++ (blanks ++ ['(']), [')'], by simp [Piece.text]⟩
  tokens := by simp
  calls _ := calls_call callee hblanks hinner rest

/-- A piece with characters in front of it that are no letters. -/
theorem Laid.behind {front cs rest : List Char} {p : Piece} (h : Laid cs p rest)
    (hfront : ∀ c ∈ front, c.isAlpha = false) : Laid (front ++ cs) p rest where
  parts := by
    obtain ⟨first, back, hcs⟩ := h.parts
    exact ⟨front ++ first, back, by rw [hcs, List.append_assoc]⟩
  tokens := h.tokens
  calls hrest := by rw [calls_skip hfront, h.calls hrest]

/-- What is read behind a caret, and what is left, make up the text with all its calls. -/
theorem exponentPiece_laid (total minuses : Nat) {cs : List Char} (h : Matched cs) :
    Meets (exponentPiece total minuses cs) (fun r => Laid cs r.1 r.2) fun _ => True := by
  match cs with
  | [] => exact trivial
  | c :: cs =>
    rw [exponentPiece]
    by_cases hopen : c = '('
    · subst hopen
      obtain ⟨inner, rest, rfl, hinner, -⟩ := h.nested.split
      rw [if_pos rfl, inside_close hinner]
      exact laid_inside (p := .power minuses inner) rfl (by simp) hinner
    rw [if_neg hopen]
    by_cases hnumeral : isNumeral c = true
    · rw [if_pos hnumeral]
      have hletters : ∀ d ∈ c :: cs.takeWhile isNumeral, d.isAlpha = false := by
        intro d hd
        refine (token_of_isNumeral ?_).2
        rcases List.mem_cons.mp hd with rfl | hd
        · exact hnumeral
        · exact List.mem_takeWhile_imp hd
      have hcs : c :: cs = (c :: cs.takeWhile isNumeral) ++ cs.dropWhile isNumeral := by
        rw [List.cons_append, List.takeWhile_append_dropWhile]
      refine ⟨⟨[], [], hcs⟩, by simp, fun _ => ?_⟩
      dsimp only [Piece.text, Piece.called]
      rw [calls_of_no_letter hletters]
      conv_lhs => rw [hcs, calls_skip hletters]
      rfl
    rw [if_neg hnumeral]
    by_cases hletter : c.isAlpha = true
    · rw [if_pos hletter]
      refine ⟨⟨[], [], rfl⟩, by simp, ?_⟩
      rintro ⟨total', row, hrow⟩
      -- a call with this letter would leave letters that are not read
      have hhere : callHere? (c :: cs) = none := by
        by_contra hcall
        obtain ⟨⟨callee, inner⟩, hsome⟩ := Option.ne_none_iff_exists'.mp hcall
        exact readRow_tail_of_call (callHere?_eq_some_iff.mp hsome) total' row hrow
      have hone : callHere? [c] = none := callHere?_of_free (by simp [hletter, Text.dropBlanks])
      dsimp only [Piece.text, Piece.called]
      rw [calls, calls, hhere, hone]
      rfl
    · rw [if_neg hletter]
      exact trivial

/-- Behind a caret, blanks and minus signs come before the exponent. -/
theorem caret_laid (total : Nat) {cs : List Char} (h : Matched cs) :
    Meets (exponentPiece total ((Text.dropBlanks cs).takeWhile (· == '-')).length
      ((Text.dropBlanks cs).dropWhile (· == '-'))) (fun r => Laid ('^' :: cs) r.1 r.2)
      fun _ => True := by
  have hsigned : Matched (Text.dropBlanks cs) := h.dropWhile (plain_of_mem (by decide)).2
  have hsplit : '^' :: cs = ('^' :: (cs.takeWhile Text.isBlank ++
      (Text.dropBlanks cs).takeWhile (· == '-'))) ++ (Text.dropBlanks cs).dropWhile (· == '-') := by
    rw [List.cons_append, List.append_assoc, List.takeWhile_append_dropWhile, Text.dropBlanks,
      List.takeWhile_append_dropWhile]
  have hfront : ∀ d ∈ '^' :: (cs.takeWhile Text.isBlank ++
      (Text.dropBlanks cs).takeWhile (· == '-')), d.isAlpha = false := by
    intro d hd
    rcases List.mem_cons.mp hd with rfl | hd
    · rfl
    rcases List.mem_append.mp hd with hd | hd
    · exact isAlpha_of_isBlank (List.mem_takeWhile_imp hd)
    · rw [beq_iff_eq.mp (List.mem_takeWhile_imp (p := (· == '-')) hd)]
      rfl
  refine (exponentPiece_laid total _ (hsigned.dropWhile (p := (· == '-')) rfl)).imp fun r hr => ?_
  rw [hsplit]
  exact hr.behind hfront

/-- What is read behind a name, and what is left, make up the text with all its calls. -/
theorem namePiece_laid (total : Nat) {name cs : List Char} (hne : name ≠ [])
    (hname : ∀ c ∈ name, c.isAlpha = true) (hcs : ∀ c ∈ cs.head?, c.isAlpha = false)
    (h : Matched cs) :
    Meets (namePiece total name cs) (fun r => Laid (name ++ cs) r.1 r.2) fun _ => True := by
  have htokens : ∀ item ∈ name.map fun c => Item.var (String.singleton c), ∃ t, item = .token t := by
    intro item hi
    obtain ⟨c, -, rfl⟩ := List.mem_map.mp hi
    exact ⟨_, rfl⟩
  by_cases hone : name.length = 1
  · -- no single letter is a name
    rw [namePiece_free (.inl hone)]
    refine laid_finished (calls_unnamed hname hcs fun front last hlast => ?_) htokens
    obtain ⟨c, rfl⟩ := List.length_eq_one_iff.mp hone
    rcases List.append_eq_singleton_iff.mp hlast with ⟨-, rfl⟩ | ⟨-, rfl⟩
    · exact Callee.ofName?_letter c
    · rfl
  by_cases hopen : (Text.dropBlanks cs).head? = some '('
  · obtain ⟨after, hafter⟩ := List.head?_eq_some_iff.mp hopen
    have hmatched : Matched ('(' :: after) := hafter ▸ h.dropWhile (plain_of_mem (by decide)).2
    obtain ⟨inner, rest, rfl, hinner, -⟩ := hmatched.nested.split
    rw [namePiece_open hone hafter, inside_close hinner, ok_bind]
    dsimp only
    split
    · next callee hcallee =>
      have hletters : name = callee.name.toList := by
        rw [← Callee.ofName?_eq_some hcallee, String.toList_ofList]
      have hsplit := List.takeWhile_append_dropWhile (p := Text.isBlank) (l := cs)
      rw [← Text.dropBlanks, hafter] at hsplit
      rw [hletters, ← hsplit]
      exact laid_call callee (fun c hc => List.mem_takeWhile_imp hc) hinner
    · exact trivial
  · rw [namePiece_free (.inr hopen)]
    exact laid_finished (calls_free hname ⟨hcs, hopen⟩) htokens

/-- A piece and what is left make up the text with all its calls. -/
theorem nextPiece_laid (total : Nat) {c : Char} {cs : List Char} (h : Matched (c :: cs)) :
    Meets (nextPiece total c cs) (fun r => Laid (c :: cs) r.1 r.2) fun _ => True := by
  -- a character that is no letter calls nothing
  have hskip : c.isAlpha = false → calls ([c] ++ cs) = calls cs :=
    fun hc => calls_skip (List.forall_mem_singleton.mpr hc) cs
  unfold nextPiece
  by_cases hblank : Text.isBlank c = true
  · rw [if_pos hblank]
    exact laid_finished (hskip (isAlpha_of_isBlank hblank)) (by simp)
  rw [if_neg hblank]
  by_cases hopen : c = '('
  · subst hopen
    obtain ⟨inner, rest, rfl, hinner, -⟩ := h.nested.split
    rw [if_pos rfl, inside_close hinner]
    exact laid_inside (p := .group inner) rfl (by simp) hinner
  have htail := h.tail hopen
  rw [if_neg hopen]
  by_cases hcaret : c = '^'
  · subst hcaret
    rw [if_pos rfl]
    exact caret_laid total htail
  rw [if_neg hcaret]
  by_cases hcomma : c = ','
  · rw [if_pos hcomma]
    exact trivial
  rw [if_neg hcomma]
  by_cases hletter : c.isAlpha = true
  · rw [if_pos hletter]
    have hname : ∀ d ∈ c :: cs.takeWhile Char.isAlpha, d.isAlpha = true :=
      List.forall_mem_cons.mpr ⟨hletter, fun d hd => List.mem_takeWhile_imp hd⟩
    have hpiece := namePiece_laid total (by simp) hname (head_dropWhile _ _)
      (htail.dropWhile rfl)
    rwa [List.cons_append, List.takeWhile_append_dropWhile] at hpiece
  rw [if_neg hletter]
  have hnone := hskip (by simpa using hletter)
  split
  · exact laid_finished hnone (by simp)
  · exact trivial

/-- What a tidy text is laid out in is tidy. -/
theorem Laid.tidy {cs rest : List Char} {p : Piece} (h : Laid cs p rest) (htidy : Tidy cs)
    (hm : p.Matched ∧ Matched rest) : Tidy p.text ∧ Tidy rest := by
  obtain ⟨front, back, hcs⟩ := h.parts
  have htext : p.text <:+: cs := ⟨front, back ++ rest, by rw [hcs, List.append_assoc]⟩
  have hrest : rest <:+: cs := ⟨front ++ (p.text ++ back), [], by simp [hcs]⟩
  refine ⟨htidy.of_infix htext ?_, htidy.of_infix hrest hm.2⟩
  cases p with
  | finished row => exact ⟨.nil, by simp [Piece.text]⟩
  | group | power | call => exact hm.1

/-! ## Rows with the calls of their texts -/

/-- The calls in a row are the calls in a text. -/
def SameCalls (cs : List Char) (row : Row) : Prop := List.Forall₂ Imported (calls cs) row.calls

/-- The item of a call has that call, and those in its rows. -/
theorem Callee.item_calls {callee : Callee} {args : List Row} (h : args.length = callee.arity) :
    (callee.item args).calls = (callee, args) :: args.flatMap Row.calls := by
  match callee, args, h with
  | .sqrt, [row], _ => simp [Callee.item, Item.calls, Row.calls]
  | .fraction, [top, bottom], _ => simp [Callee.item, Item.calls, Row.calls]
  | .function f, args, _ => rw [Callee.item, Item.calls, Item.callsInRows_eq]

/-- Texts with the calls of rows have, one behind the other, the calls of all rows. -/
theorem sameCalls_flatMap {texts : List (List Char)} {rows : List Row}
    (h : List.Forall₂ SameCalls texts rows) :
    List.Forall₂ Imported (texts.flatMap calls) (rows.flatMap Row.calls) := by
  induction h with
  | nil => exact .nil
  | cons hrow _ ih =>
    rw [List.flatMap_cons, List.flatMap_cons]
    exact List.rel_append hrow ih

/-- Rows that are read from texts no longer than `cs` have the calls of their texts. -/
def ReadsUpTo (cs : List Char) : Prop :=
  ∀ t : List Char, t.length ≤ cs.length → Tidy t →
    Meets (readRow t.length t) (SameCalls t) fun _ => True

/-- The arguments that a call is given have the calls of their texts. -/
theorem Given.reads {inner : List Char} {texts : List (List Char)} (h : Given inner texts)
    (hinner : Tidy inner) (ih : ReadsUpTo inner) :
    ∀ t ∈ texts, Meets (Row.ofText (String.ofList t))
      (fun row => Row.ofText (String.ofList t) = .ok row ∧ SameCalls t row) fun _ => True := by
  intro t ht
  obtain ⟨hin, hnested, hne⟩ := h.of_mem ht
  have htidy : Tidy t := h.tidy hinner ht
  have htrim : Tidy (Text.trimBlanks t) :=
    htidy.of_infix (infix_trimBlanks t) htidy.toMatched.trimBlanks
  have hread := ih _ ((length_trimBlanks_le t).trans hin.length_le) htrim
  rw [← htidy.ofText_eq hne] at hread
  refine (hread.imp fun row hrow => ?_).eq_and
  rwa [SameCalls, calls_trimBlanks hnested] at hrow

/-- What is read inside a call is that call and the calls in its arguments. -/
theorem Piece.call_items_calls (stop : Nat) (callee : Callee) {inner : List Char}
    (hinner : Tidy inner) (ih : ReadsUpTo inner) :
    Meets ((Piece.call callee inner).items stop)
      (fun row => List.Forall₂ Imported ((Piece.call callee inner).called ++ calls inner)
        row.calls) fun _ => True := by
  obtain ⟨texts, hgiven⟩ := exists_given hinner.nested
  rw [items]
  split
  · exact trivial
  · next hcount =>
    rw [not_not] at hcount
    rw [hgiven.readRows_eq hinner]
    refine (Meets.mapM (hgiven.reads hinner ih)).bind fun args hread => ?_
    have htexts : texts.length = callee.arity := by
      rw [← hcount, hgiven.arguments_eq, List.length_map]
    have hlen : args.length = callee.arity := by rw [← hread.length_eq, htexts]
    rw [meets_pure, Row.calls_singleton, Callee.item_calls hlen]
    refine .cons ⟨rfl, texts, hgiven, htexts, hread.imp fun _ _ h => h.1⟩ ?_
    rw [hgiven.calls_eq]
    exact sameCalls_flatMap (hread.imp fun _ _ h => h.2)

/-- The items of a piece have the calls of the piece, if this is so for all shorter texts. -/
theorem Piece.items_calls (stop : Nat) {p : Piece}
    (htokens : ∀ row, p = .finished row → ∀ item ∈ row, ∃ t, item = .token t)
    (htext : Tidy p.text) (ih : ReadsUpTo p.text) :
    Meets (p.items stop)
      (fun row => List.Forall₂ Imported (p.called ++ calls p.text) row.calls) fun _ => True := by
  cases p with
  | finished row =>
    rw [items, meets_ok, Row.calls_tokens (htokens row rfl)]
    exact .nil
  | group inner =>
    rw [items]
    refine (ih inner le_rfl htext).bind fun row hrow => ?_
    rw [meets_pure, Row.calls_singleton]
    exact hrow
  | power minuses exponent =>
    rw [items]
    refine (ih exponent le_rfl htext).bind fun row hrow => ?_
    -- the minuses in front are tokens, and no token has a call in it
    have hminuses : ∀ item ∈ List.replicate minuses (Item.token .subtract),
        ∃ t, item = .token t := fun item hi => ⟨_, List.eq_of_mem_replicate hi⟩
    cases row with
    | nil => exact trivial
    | cons item items =>
      rw [meets_pure, Row.calls_singleton]
      change List.Forall₂ Imported _ (Row.calls (_ ++ _))
      rw [Row.calls_append, Row.calls_tokens hminuses]
      exact hrow
  | call callee inner => exact call_items_calls stop callee htext ih

/-- A row has the calls of the text that it is read from. -/
theorem readRow_sameCalls (total : Nat) {cs : List Char} (h : Tidy cs) :
    Meets (readRow total cs) (SameCalls cs) fun _ => True := by
  -- what a piece leaves to be read is shorter than the text it was taken from
  induction hn : cs.length using Nat.strong_induction_on generalizing total cs with
  | _ n ih =>
  subst hn
  match cs with
  | [] =>
    rw [readRow]
    exact List.Forall₂.nil
  | c :: cs =>
    cases hnext : nextPiece total c cs with
    | error f =>
      rw [readRow_error hnext]
      exact trivial
    | ok r =>
      obtain ⟨p, rest⟩ := r
      have hlaid := (nextPiece_laid total h.toMatched).of_ok hnext
      obtain ⟨htext, hrest⟩ := hlaid.tidy h ((nextPiece_matched total h.toMatched).of_ok hnext)
      have hpending := nextPiece_pending hnext
      have hshorter := p.length_text_le
      rw [readRow_piece hnext]
      refine (p.items_calls _ hlaid.tokens htext fun t ht htidy => ?_).bind fun row hrow => ?_
      · exact ih t.length (by rw [List.length_cons]; omega) _ htidy rfl
      refine (ih rest.length (by rw [List.length_cons]; omega) total hrest rfl).eq_and.bind
        fun next hnext => ?_
      rw [meets_pure, SameCalls, Row.calls_append, hlaid.calls ⟨total, next, hnext.1⟩,
        ← List.append_assoc]
      exact List.rel_append hrow hnext.2

end Reader
end Mathpad
