import Mathpad.Proofs.ReadCalls

/-!
# Calls with a wrong number of arguments

Reading goes from left to right, so what is in front of a call decides how the call is come
to: either pieces end before it, or it stands inside of a piece that begins before it, or no
text that goes on with a call can be read. What is in front of a call in a text that is read
can therefore be taken over to another text, and if the call there has a wrong number of
arguments, that is the fault that is reported.
-/
set_option autoImplicit false

namespace Mathpad

-- Statements about each character of a list are decided along the list.
attribute [local instance (high)] List.decidableBAll

namespace Reader

/-! ## Texts that begin with a call -/

section BeginsWithCall

variable {cs : List Char} {callee : Callee} {inner : List Char}

/-- A call begins with a letter. -/
theorem BeginsWithCall.head (h : BeginsWithCall cs callee inner) :
    ∃ c tail, cs = c :: tail ∧ c.isAlpha = true := by
  obtain ⟨blanks, rest, -, -, rfl⟩ := h
  obtain ⟨c, tail, hname, hc, -⟩ := name_letters callee
  exact ⟨c, _, by rw [hname, List.cons_append], hc⟩

/-- What stops at letters stops in front of a call. -/
theorem BeginsWithCall.stop (h : BeginsWithCall cs callee inner) {p : Char → Bool}
    (hp : ∀ c : Char, c.isAlpha = true → p c = false) : ∀ c ∈ cs.head?, p c = false := by
  obtain ⟨c, tail, rfl, hc⟩ := h.head
  intro d hd
  rw [← Option.some.inj hd]
  exact hp c hc

/-- Blanks end before a call at the latest. -/
theorem BeginsWithCall.dropBlanks_append (h : BeginsWithCall cs callee inner) (front : List Char) :
    Text.dropBlanks (front ++ cs) = Text.dropBlanks front ++ cs :=
  dropWhile_append_of_stop (h.stop fun _ he => (plain_of_isAlpha he).2) front

/-- A call does not open a parenthesis for what is in front of it. -/
theorem BeginsWithCall.head_dropBlanks_ne_open (h : BeginsWithCall cs callee inner)
    {front : List Char} (hfront : (Text.dropBlanks front).head? ≠ some '(') :
    (Text.dropBlanks (front ++ cs)).head? ≠ some '(' := by
  obtain ⟨c, tail, rfl, hc⟩ := h.head
  rw [h.dropBlanks_append]
  cases hblanks : Text.dropBlanks front with
  | nil =>
    have hopen : c ≠ '(' := by
      rintro rfl
      cases hc
    simpa using hopen
  | cons d ds =>
    rw [hblanks] at hfront
    exact hfront

/-- The call itself has matching parentheses, and anything could follow. -/
theorem BeginsWithCall.exists_append (h : BeginsWithCall cs callee inner) :
    ∃ c middle rest, cs = (c :: (middle ++ [')'])) ++ rest ∧ c.isAlpha = true ∧
      Brackets.Nested false (c :: (middle ++ [')'])) ∧
      ∀ next, BeginsWithCall ((c :: (middle ++ [')'])) ++ next) callee inner := by
  obtain ⟨blanks, rest, hblanks, hinner, rfl⟩ := h
  obtain ⟨c, tail, hname, hc, -⟩ := name_letters callee
  have hcall : ∀ next, (c :: ((tail ++ (blanks ++ '(' :: inner)) ++ [')'])) ++ next =
      callee.name.toList ++ (blanks ++ '(' :: (inner ++ ')' :: next)) := by
    intro next
    rw [hname]
    simp
  -- neither a letter nor a blank has a part in the structure
  have hplain : ∀ d : Char, d.isAlpha = true ∨ Text.isBlank d = true →
      d ≠ '(' ∧ d ≠ ')' ∧ d ≠ ',' := by
    intro d hd
    refine ⟨?_, ?_, ?_⟩ <;>
      (rintro rfl; rw [(plain_of_mem (by decide)).2] at hd; simp at hd)
  have hnested : Brackets.Nested false (callee.name.toList ++ (blanks ++ '(' :: (inner ++ [')']))) :=
    (Brackets.Nested.of_forall fun d hd => hplain d (.inl (callee.isAlpha_name d hd))).append
      ((Brackets.Nested.of_forall fun d hd => hplain d (.inr (hblanks d hd))).append
        (.group hinner .nil))
  refine ⟨c, tail ++ (blanks ++ '(' :: inner), rest, (hcall rest).symm, hc, ?_, fun next => ?_⟩
  · have heq := hcall []
    rw [List.append_nil] at heq
    rw [heq]
    exact hnested
  · exact ⟨blanks, next, hblanks, hinner, hcall next⟩

/-- A call is not cut off by a parenthesis that closes one before it. -/
theorem BeginsWithCall.inside (h : BeginsWithCall cs callee inner) {depth : Nat}
    {text rest : List Char} (hclose : Brackets.untilClosing depth cs = some (text, rest)) :
    BeginsWithCall text callee inner := by
  obtain ⟨c, middle, next, rfl, -, hnested, hall⟩ := h.exists_append
  rw [hnested.untilClosing_append] at hclose
  obtain ⟨s, -, hs⟩ := Option.map_eq_some_iff.mp hclose
  cases hs
  exact hall s.1

/-- The first piece of a text that begins with a call is the call. -/
theorem BeginsWithCall.nextPiece_eq (h : BeginsWithCall cs callee inner) :
    ∃ c tail rest, cs = c :: tail ∧
      ∀ total, nextPiece total c tail = .ok (.call callee inner, rest) := by
  obtain ⟨blanks, rest, hblanks, hinner, rfl⟩ := h
  obtain ⟨c, tail, hname, hpiece⟩ := nextPiece_call callee blanks hblanks hinner
  exact ⟨c, _, rest, by rw [hname, List.cons_append], fun total => hpiece total rest⟩

end BeginsWithCall

/-! ## The argument that a call stands in -/

/-- What is in front of a call decides which arguments come before the one with the call, and
how that one begins. -/
theorem exists_arguments_append (left : List Char) :
    ∃ before front, front.length ≤ left.length ∧
      ∀ {cs callee inner}, BeginsWithCall cs callee inner →
        ∃ text after, BeginsWithCall text callee inner ∧
          Brackets.arguments (left ++ cs) = before ++ (front ++ text) :: after := by
  obtain ⟨before, last, depth, hlast, hcut⟩ := Brackets.Nested.exists_cutAtCommas_append 0 left
  refine ⟨(before.map Text.trimBlanks).filter (· ≠ []), Text.dropBlanks last,
    (length_dropWhile_le _ _).trans hlast, ?_⟩
  intro cs callee inner h
  obtain ⟨c, middle, rest, rfl, hc, hnested, hall⟩ := h.exists_append
  obtain ⟨piece, pieces, hrest⟩ :=
    List.exists_cons_of_ne_nil (Brackets.Nested.cutAtCommas_ne_nil depth rest)
  refine ⟨_, (pieces.map Text.trimBlanks).filter (· ≠ []),
    hall (piece.reverse.dropWhile Text.isBlank).reverse, ?_⟩
  have hblank : ∀ e ∈ (c :: (middle ++ [')'])).getLast?, Text.isBlank e = false := by
    rw [← List.cons_append, List.getLast?_concat]
    simpa using (plain_of_mem (c := ')') (by decide)).2
  have htrim := trimBlanks_around (List.cons_ne_nil c (middle ++ [')']))
    (by simpa using (plain_of_isAlpha hc).2) hblank last piece
  rw [Brackets.arguments, hcut, hnested.cutAtCommas_append depth (by simp), hrest,
    List.modifyHead_cons, List.modifyHead_cons, List.map_append, List.filter_append, List.map_cons,
    htrim, List.filter_cons_of_pos (by simp)]

/-! ## Coming to a call -/

/-- The pieces that have a text inside of parentheses, as functions of that text. -/
inductive Wrapper : (List Char → Piece) → Prop
  | group : Wrapper .group
  | power (minuses : Nat) : Wrapper (.power minuses)
  | call (callee : Callee) : Wrapper (.call callee)

/-- What is matched in a wrapper is matched by itself. -/
theorem Wrapper.matched {wrap : List Char → Piece} (h : Wrapper wrap) {text : List Char}
    (hm : (wrap text).Matched) : Matched text := by
  cases h <;> exact hm

/-- What comes of a text that begins with `c` and `front`, with a call right behind them. -/
inductive Approach (c : Char) (front : List Char) : Prop
  /-- The first piece ends before the call. -/
  | ends (p : Piece) (left : List Char) (hle : left.length ≤ front.length)
      (h : ∀ {cs callee inner}, BeginsWithCall cs callee inner →
        ∀ total, nextPiece total c (front ++ cs) = .ok (p, left ++ cs))
  /-- The call stands between the parentheses of the first piece. -/
  | opens (wrap : List Char → Piece) (hwrap : Wrapper wrap) (left : List Char)
      (hle : left.length ≤ front.length)
      (h : ∀ {cs callee inner}, BeginsWithCall cs callee inner → Matched (c :: (front ++ cs)) →
        ∃ text rest, BeginsWithCall text callee inner ∧
          ∀ total, nextPiece total c (front ++ cs) = .ok (wrap (left ++ text), rest))
  /-- No such text is read. -/
  | fails (h : ∀ {cs callee inner}, BeginsWithCall cs callee inner →
      ∀ total row, readRow total (c :: (front ++ cs)) ≠ .ok row)

namespace Approach

variable {c : Char} {front : List Char}

/-- Where the piece in front of a call is always at fault, no such text is read. -/
theorem of_error (h : ∀ {cs callee inner}, BeginsWithCall cs callee inner →
    ∀ total, ∃ f, nextPiece total c (front ++ cs) = .error f) : Approach c front := by
  refine .fails fun hcall total row => ?_
  obtain ⟨f, hf⟩ := h hcall total
  rw [readRow_error hf]
  simp

/-- A parenthesis that is opened before the call is closed before it or behind it. -/
theorem of_inside {wrap : List Char → Piece} (hwrap : Wrapper wrap) {left : List Char}
    (hle : left.length ≤ front.length)
    (hmatched : ∀ {cs callee inner}, BeginsWithCall cs callee inner →
      Matched (c :: (front ++ cs)) → Matched ('(' :: (left ++ cs)))
    (h : ∀ {cs callee inner}, BeginsWithCall cs callee inner →
      ∀ total, nextPiece total c (front ++ cs) = do
        let (text, rest) ← inside total (left ++ cs)
        return (wrap text, rest)) : Approach c front := by
  cases hclose : Brackets.untilClosing 0 left with
  | some s =>
    obtain ⟨text, rest⟩ := s
    have hlength := Brackets.untilClosing_length hclose
    refine .ends (wrap text) rest (by omega) fun hcall total => ?_
    rw [h hcall, Reader.inside, Brackets.Nested.untilClosing_append_of_some hclose]
    rfl
  | none =>
    obtain ⟨depth, hdepth⟩ := Brackets.Nested.untilClosing_append_of_none hclose
    refine .opens wrap hwrap left hle fun hcall hm => ?_
    -- the parenthesis is closed, as all of them are
    obtain ⟨text, rest, htext, hnested, -⟩ := (hmatched hcall hm).nested.split
    have hall := hnested.untilClosing_close rest
    rw [← htext, hdepth] at hall
    obtain ⟨s, hs, -⟩ := Option.map_eq_some_iff.mp hall
    refine ⟨s.1, s.2, hcall.inside hs, fun total => ?_⟩
    rw [h hcall, Reader.inside, hdepth, hs]
    rfl

/-- Letters with a call right behind them: the name is another one than that of the call. -/
theorem of_letters {letters : List Char} (hname : ∀ d ∈ c :: letters, d.isAlpha = true) :
    Approach c letters := by
  refine .fails fun {cs callee inner} hcall total row => ?_
  obtain ⟨blanks, rest, hblanks, -, rfl⟩ := hcall
  have hlong : 1 < (c :: letters ++ callee.name.toList).length := by
    obtain ⟨d, tail, hcallee, -⟩ := name_letters callee
    rw [hcallee]
    simp
  have hunnamed := readRow_unnamed
    (fun d hd => (List.mem_append.mp hd).elim (hname d) (callee.isAlpha_name d)) hlong
    (Callee.ofName?_append_eq_none (by simp) callee) hblanks total (inner ++ ')' :: rest) row
  simpa using hunnamed

/-- Letters that end before the call. -/
theorem of_word {letters after : List Char} {d : Char}
    (hname : ∀ d ∈ c :: letters, d.isAlpha = true) (hd : d.isAlpha = false) :
    Approach c (letters ++ d :: after) := by
  have hletters : ∀ e ∈ letters, e.isAlpha = true := fun e he => hname e (by simp [he])
  have hword : ∀ cs, (letters ++ d :: after ++ cs).dropWhile Char.isAlpha = d :: after ++ cs := by
    intro cs
    rw [List.append_assoc, List.dropWhile_append_of_pos hletters, List.cons_append,
      List.dropWhile_cons_of_neg (by simp [hd])]
  have hpiece : ∀ total cs, nextPiece total c (letters ++ d :: after ++ cs) =
      namePiece total (c :: letters) (d :: after ++ cs) := by
    intro total cs
    rw [nextPiece_letter (hname c (by simp)), hword, List.append_assoc,
      List.takeWhile_append_of_pos hletters, List.cons_append,
      List.takeWhile_cons_of_neg (by simp [hd]), List.append_nil]
  -- a single letter, or letters without a parenthesis behind them, are variables
  by_cases hfree : (c :: letters).length = 1 ∨ (Text.dropBlanks (d :: after)).head? ≠ some '('
  · refine .ends (.finished ((c :: letters).map fun e => .var (String.singleton e))) (d :: after)
      (by simp) fun hcall total => ?_
    rw [hpiece, namePiece_free (hfree.imp_right hcall.head_dropBlanks_ne_open)]
  obtain ⟨hlong, hopen⟩ := not_or.mp hfree
  obtain ⟨left, hleft⟩ := List.head?_eq_some_iff.mp (not_not.mp hopen)
  -- the parenthesis is one in front of the call, whatever the call is
  have hnext : ∀ {cs callee inner}, BeginsWithCall cs callee inner →
      Text.dropBlanks (d :: after ++ cs) = '(' :: (left ++ cs) := by
    intro cs callee inner hcall
    rw [hcall.dropBlanks_append, hleft, List.cons_append]
  cases hcallee : Callee.ofName? (String.ofList (c :: letters)) with
  | none =>
    refine .of_error fun {cs callee inner} hcall total => ?_
    rw [hpiece, namePiece_open hlong (hnext hcall), hcallee]
    cases Reader.inside total (left ++ cs) with
    | ok r => exact ⟨_, rfl⟩
    | error f => exact ⟨f, rfl⟩
  | some callee' =>
    have hle : left.length ≤ (letters ++ d :: after).length := by
      have hlength := length_dropWhile_le Text.isBlank (d :: after)
      rw [← Text.dropBlanks, hleft, List.length_cons] at hlength
      rw [List.length_append]
      omega
    refine .of_inside (.call callee') hle (fun {cs callee inner} hcall hm => ?_)
      fun hcall total => ?_
    · have hopen : c ≠ '(' := by
        rintro rfl
        cases hname '(' (by simp)
      have hafter := (hm.tail hopen).dropWhile (p := Char.isAlpha) rfl
      rw [hword] at hafter
      exact hnext hcall ▸ hafter.dropWhile (plain_of_mem (by decide)).2
    · rw [hpiece, namePiece_open hlong (hnext hcall), hcallee]

/-- An exponent, when only blanks and minus signs are in front of it. -/
theorem of_exponent {front : List Char} (exponent : List Char) (minuses : Nat)
    (hle : exponent.length ≤ front.length)
    (hmatched : ∀ {cs callee inner}, BeginsWithCall cs callee inner →
      Matched ('^' :: (front ++ cs)) → Matched (exponent ++ cs))
    (hpiece : ∀ {cs callee inner}, BeginsWithCall cs callee inner → ∀ total,
        nextPiece total '^' (front ++ cs) = exponentPiece total minuses (exponent ++ cs)) :
    Approach '^' front := by
  match exponent with
  | [] =>
    -- the exponent is the first letter of the name, and the other letters are no name
    refine .fails fun {cs callee inner} hcall total row hrow => ?_
    obtain ⟨c, tail, rfl, hc⟩ := hcall.head
    have hopen : c ≠ '(' := by
      rintro rfl
      cases hc
    have hnext : nextPiece total '^' (front ++ c :: tail) = .ok (.power minuses [c], tail) := by
      rw [hpiece hcall, List.nil_append, exponentPiece, if_neg hopen,
        if_neg (by simp [isNumeral_of_isAlpha hc]), if_pos hc]
    rw [readRow_piece hnext] at hrow
    obtain ⟨items, -, hrow⟩ := Outcome.bind_eq_ok.mp hrow
    obtain ⟨next, htail, -⟩ := Outcome.bind_eq_ok.mp hrow
    exact readRow_tail_of_call hcall total next htail
  | c :: left =>
    rw [List.length_cons] at hle
    by_cases hopen : c = '('
    · subst hopen
      refine .of_inside (.power minuses) (by omega) hmatched fun hcall total => ?_
      rw [hpiece hcall, List.cons_append, exponentPiece, if_pos rfl]
    by_cases hnumeral : isNumeral c = true
    · have hlength := length_dropWhile_le isNumeral left
      refine .ends (.power minuses (c :: left.takeWhile isNumeral)) (left.dropWhile isNumeral)
        (by omega) fun hcall total => ?_
      have hstop := hcall.stop fun _ => isNumeral_of_isAlpha
      rw [hpiece hcall, List.cons_append, exponentPiece, if_neg hopen, if_pos hnumeral,
        takeWhile_append_of_stop hstop, dropWhile_append_of_stop hstop]
    by_cases hletter : c.isAlpha = true
    · refine .ends (.power minuses [c]) left (by omega) fun hcall total => ?_
      rw [hpiece hcall, List.cons_append, exponentPiece, if_neg hopen, if_neg hnumeral,
        if_pos hletter]
    · refine .of_error fun {cs _ _} hcall total =>
        ⟨.input (.missingExponent (place total (c :: (left ++ cs)) - 1)), ?_⟩
      rw [hpiece hcall, List.cons_append, exponentPiece, if_neg hopen, if_neg hnumeral,
        if_neg hletter]

/-- A caret, and a call somewhere behind it. -/
theorem of_caret (front : List Char) : Approach '^' front := by
  -- as the blanks do, the minus signs behind the caret end before the call
  have hletter : ∀ e : Char, e.isAlpha = true → (e == '-') = false := by
    intro e he
    rw [beq_eq_false_iff_ne]
    rintro rfl
    cases he
  refine .of_exponent ((Text.dropBlanks front).dropWhile (· == '-'))
    ((Text.dropBlanks front).takeWhile (· == '-')).length
    ((length_dropWhile_le _ _).trans (length_dropWhile_le _ _)) (fun hcall hm => ?_)
    fun hcall total => ?_
  · rw [← dropWhile_append_of_stop (hcall.stop hletter), ← hcall.dropBlanks_append]
    exact ((hm.tail (by decide)).dropWhile (plain_of_mem (by decide)).2).dropWhile rfl
  · have hcaret : ¬ Text.isBlank '^' = true := by
      simp [(plain_of_mem (c := '^') (by decide)).2]
    unfold nextPiece
    rw [if_neg hcaret, if_neg (by decide), if_pos rfl]
    dsimp only
    rw [hcall.dropBlanks_append, takeWhile_append_of_stop (hcall.stop hletter),
      dropWhile_append_of_stop (hcall.stop hletter)]

end Approach

/-- The text in front of a call decides how the call is come to. -/
theorem approach (c : Char) (front : List Char) : Approach c front := by
  by_cases hblank : Text.isBlank c = true
  · refine .ends (.finished []) front le_rfl fun _ total => ?_
    unfold nextPiece
    rw [if_pos hblank]
  by_cases hopen : c = '('
  · subst hopen
    refine .of_inside .group le_rfl (fun _ hm => hm) fun _ total => ?_
    unfold nextPiece
    rw [if_neg hblank, if_pos rfl]
  by_cases hcaret : c = '^'
  · subst hcaret
    exact .of_caret front
  by_cases hcomma : c = ','
  · refine .of_error fun {cs _ _} _ total =>
      ⟨.input (.strayComma (place total (c :: (front ++ cs)))), ?_⟩
    unfold nextPiece
    rw [if_neg hblank, if_neg hopen, if_neg hcaret, if_pos hcomma]
  by_cases hletter : c.isAlpha = true
  · have hname : ∀ d ∈ c :: front.takeWhile Char.isAlpha, d.isAlpha = true :=
      List.forall_mem_cons.mpr ⟨hletter, fun d hd => List.mem_takeWhile_imp hd⟩
    have hfront := List.takeWhile_append_dropWhile (p := Char.isAlpha) (l := front)
    have hhead := head_dropWhile Char.isAlpha front
    rw [← hfront]
    cases hafter : front.dropWhile Char.isAlpha with
    | nil =>
      rw [List.append_nil]
      exact .of_letters hname
    | cons d after =>
      rw [hafter] at hhead
      exact .of_word hname (hhead d rfl)
  -- any other character is one token, whatever is behind it
  cases htoken : Token.ofChar? c with
  | none =>
    refine .of_error fun _ total => ⟨.refused (.noToken (String.singleton c)), ?_⟩
    unfold nextPiece
    rw [if_neg hblank, if_neg hopen, if_neg hcaret, if_neg hcomma, if_neg hletter, htoken]
  | some t =>
    refine .ends (.finished [.token t]) front le_rfl fun _ total => ?_
    unfold nextPiece
    rw [if_neg hblank, if_neg hopen, if_neg hcaret, if_neg hcomma, if_neg hletter, htoken]

/-! ## Reading up to a call -/

/-- A computation fails because of the arguments of a call. -/
def BadArguments {α : Type} (o : Outcome α) : Prop :=
  ∃ e : InputError, o = .error (.input e) ∧ e.code = "BAD_ARGUMENTS"

theorem BadArguments.bind {α β : Type} {o : Outcome α} (h : BadArguments o) (k : α → Outcome β) :
    BadArguments (o >>= k) := by
  obtain ⟨e, rfl, he⟩ := h
  exact ⟨e, rfl, he⟩

/-- What comes first does not keep from failing what fails for the number of arguments. -/
theorem BadArguments.after {α β : Type} {o : Outcome α} {k : α → Outcome β} {a : α}
    (ho : o = .ok a) (h : BadArguments (k a)) : BadArguments (o >>= k) := by
  rw [ho]
  exact h

/-- A call with another number of arguments than its callee takes is refused for it. -/
theorem Piece.items_badArguments {callee : Callee} {inner : List Char}
    (h : (Brackets.arguments inner).length ≠ callee.arity) (stop : Nat) :
    BadArguments ((Piece.call callee inner).items stop) := by
  rw [items, if_pos h]
  exact ⟨_, rfl, rfl⟩

/-- Whether a piece has items does not depend on the place that is reported. -/
theorem Piece.items_ok {p : Piece} {stop : Nat} {row : Row} (h : p.items stop = .ok row)
    (stop' : Nat) : p.items stop' = .ok row := by
  cases p with
  | finished | group | call => exact h
  | power minuses exponent =>
    rw [items] at h ⊢
    obtain ⟨inner, hinner, h⟩ := Outcome.bind_eq_ok.mp h
    rw [hinner, ok_bind]
    cases inner with
    | nil => cases h
    | cons item items => exact h

/-- If any text is read that has a call behind `left`, a call with a wrong number of arguments is
reported when it stands there. -/
def TakesOver (left : List Char) : Prop :=
  ∀ {good bad : List Char} {callee callee' : Callee} {inner inner' : List Char}
    {total total' : Nat} {row : Row}, BeginsWithCall good callee inner →
    Matched (left ++ good) → readRow total (left ++ good) = .ok row →
    BeginsWithCall bad callee' inner' → Matched (left ++ bad) →
    (Brackets.arguments inner').length ≠ callee'.arity →
    BadArguments (readRow total' (left ++ bad))

/-- The arguments of a call, one of which has a call with a wrong number of arguments. -/
theorem readRows_badArguments {left : List Char}
    (ih : ∀ front : List Char, front.length ≤ left.length → TakesOver front)
    {good bad : List Char} {callee callee' : Callee} {inner inner' : List Char} {rows : List Row}
    (hgood : BeginsWithCall good callee inner) (hmatched : Matched (left ++ good))
    (hread : readRows (Brackets.arguments (left ++ good)) = .ok rows)
    (hbad : BeginsWithCall bad callee' inner') (hmatched' : Matched (left ++ bad))
    (hcount : (Brackets.arguments inner').length ≠ callee'.arity) :
    BadArguments (readRows (Brackets.arguments (left ++ bad))) := by
  obtain ⟨before, front, hfront, happend⟩ := exists_arguments_append left
  obtain ⟨text, after, htext, harguments⟩ := happend hgood
  obtain ⟨text', after', htext', harguments'⟩ := happend hbad
  rw [harguments, readRows_eq_mapM, List.mapM_append] at hread
  obtain ⟨firsts, hfirsts, hread⟩ := Outcome.bind_eq_ok.mp hread
  obtain ⟨others, hothers, -⟩ := Outcome.bind_eq_ok.mp hread
  rw [List.mapM_cons] at hothers
  obtain ⟨row, hrow, -⟩ := Outcome.bind_eq_ok.mp hothers
  have hm := hmatched.arguments (front ++ text) (by rw [harguments]; simp)
  have hm' := hmatched'.arguments (front ++ text') (by rw [harguments']; simp)
  rw [harguments', readRows_eq_mapM, List.mapM_append]
  refine .after hfirsts (.bind ?_ _)
  rw [List.mapM_cons]
  exact (ih front hfront htext hm hrow htext' hm' hcount).bind _

/-- A piece around a call with a wrong number of arguments. -/
theorem Wrapper.badArguments {wrap : List Char → Piece} (hwrap : Wrapper wrap) {left : List Char}
    (ih : ∀ front : List Char, front.length ≤ left.length → TakesOver front)
    {good bad : List Char} {callee callee' : Callee} {inner inner' : List Char} {row : Row}
    {stop : Nat} (hgood : BeginsWithCall good callee inner) (hmatched : Matched (left ++ good))
    (hread : (wrap (left ++ good)).items stop = .ok row)
    (hbad : BeginsWithCall bad callee' inner') (hmatched' : Matched (left ++ bad))
    (hcount : (Brackets.arguments inner').length ≠ callee'.arity) (stop' : Nat) :
    BadArguments ((wrap (left ++ bad)).items stop') := by
  cases hwrap with
  | group =>
    obtain ⟨inside, hinside, -⟩ := Outcome.bind_eq_ok.mp hread
    exact (ih left le_rfl hgood hmatched hinside hbad hmatched' hcount).bind _
  | power minuses =>
    obtain ⟨inside, hinside, -⟩ := Outcome.bind_eq_ok.mp hread
    exact (ih left le_rfl hgood hmatched hinside hbad hmatched' hcount).bind _
  | call outer =>
    by_cases houter : (Brackets.arguments (left ++ bad)).length ≠ outer.arity
    · -- the call around may have a wrong number of arguments itself, and is refused first
      exact Piece.items_badArguments houter stop'
    rw [Piece.items] at hread ⊢
    rw [if_neg houter]
    split at hread
    · cases hread
    · obtain ⟨rows, hrows, -⟩ := Outcome.bind_eq_ok.mp hread
      exact (readRows_badArguments ih hgood hmatched hrows hbad hmatched' hcount).bind _

/-- Whatever is in front of a call in a text that is read can be in front of another call. -/
theorem takesOver (front : List Char) : TakesOver front := by
  -- what is in front of the call in the rest, or inside of the piece, is shorter
  induction hn : front.length using Nat.strong_induction_on generalizing front with
  | _ n ih =>
  subst hn
  intro good bad callee callee' inner inner' total total' row hgood hmatched hread hbad hmatched'
    hcount
  match front with
  | [] =>
    obtain ⟨c, tail, rest, rfl, hnext⟩ := hbad.nextPiece_eq
    rw [List.nil_append, readRow_piece (hnext total')]
    exact (Piece.items_badArguments hcount _).bind _
  | c :: front =>
    rw [List.cons_append] at hmatched hread hmatched' ⊢
    cases approach c front with
    | ends p left hle h =>
      have hrest := ((nextPiece_matched total hmatched).of_ok (h hgood total)).2
      have hrest' := ((nextPiece_matched total' hmatched').of_ok (h hbad total')).2
      rw [readRow_piece (h hgood total)] at hread
      obtain ⟨items, hitems, hread⟩ := Outcome.bind_eq_ok.mp hread
      obtain ⟨next, hnext, -⟩ := Outcome.bind_eq_ok.mp hread
      rw [readRow_piece (h hbad total')]
      refine .after (Piece.items_ok hitems _) (.bind ?_ _)
      exact ih left.length (Nat.lt_succ_of_le hle) left rfl hgood hrest hnext hbad hrest' hcount
    | opens wrap hwrap left hle h =>
      obtain ⟨text, rest, htext, hnext⟩ := h hgood hmatched
      obtain ⟨text', rest', htext', hnext'⟩ := h hbad hmatched'
      have hinside := hwrap.matched ((nextPiece_matched total hmatched).of_ok (hnext total)).1
      have hinside' := hwrap.matched ((nextPiece_matched total' hmatched').of_ok (hnext' total')).1
      rw [readRow_piece (hnext total)] at hread
      obtain ⟨items, hitems, -⟩ := Outcome.bind_eq_ok.mp hread
      rw [readRow_piece (hnext' total')]
      refine (hwrap.badArguments (fun shorter hshorter => ?_) htext hinside hitems htext' hinside'
        hcount _).bind _
      exact ih shorter.length (Nat.lt_succ_of_le (hshorter.trans hle)) shorter rfl
    | fails h => exact absurd hread (h hgood total row)

end Reader

/-! ## Texts with calls -/

namespace Reader

/-- A text can be read that has a call behind `front`. -/
def LeadsToCall (front : List Char) : Prop :=
  ∃ (s : String) (next : List Char) (row : Row), clean s = .ok (front ++ next) ∧
    (callHere? next).isSome = true ∧ Row.ofText s = .ok row

end Reader

/-- A text that is read as a row has the calls of that row, in the same order: each is followed
by a text in parentheses with as many arguments between its commas as the callee takes, blank
ones not counted, and each argument is imported as the row in its place. A call with another
number of arguments is reported, unless reading cannot even come to a call there. -/
theorem Row.ofText_calls (s : String) :
    (∀ row, Row.ofText s = .ok row → ∃ cs, Reader.clean s = .ok cs ∧
      List.Forall₂ Reader.Imported (Reader.calls cs) row.calls) ∧
    ∀ (front call : List Char) (callee : Reader.Callee) (inner : List Char)
      (texts : List (List Char)), Reader.clean s = .ok (front ++ call) →
      Reader.callHere? call = some (callee, inner) → Reader.Given inner texts →
      texts.length ≠ callee.arity → Reader.LeadsToCall front →
      ∃ e : InputError, Row.ofText s = .error (.input e) ∧ e.code = "BAD_ARGUMENTS" := by
  constructor
  · intro row hrow
    obtain ⟨cs, hcs, hread⟩ := Outcome.bind_eq_ok.mp hrow
    exact ⟨cs, hcs, (Reader.readRow_sameCalls cs.length
      ((Reader.clean_tidy s).of_ok hcs)).of_ok hread⟩
  · rintro front call callee inner texts hclean hcall hgiven hcount
      ⟨s', next, row, hclean', hnext, hrow⟩
    obtain ⟨⟨callee', inner'⟩, hsome⟩ := Option.isSome_iff_exists.mp hnext
    rw [Row.ofText, hclean', ok_bind] at hrow
    rw [Row.ofText, hclean, ok_bind]
    refine Reader.takesOver front (Reader.callHere?_eq_some_iff.mp hsome)
      ((Reader.clean_matched s').of_ok hclean') hrow (Reader.callHere?_eq_some_iff.mp hcall)
      ((Reader.clean_matched s).of_ok hclean) ?_
    rw [hgiven.arguments_eq, List.length_map]
    exact hcount

theorem Row.ofText_calls_sqrt :
    let row : Row := [.sqrt [.digit 2, .call .gcd [[.digit 1, .digit 2], [.var "x"]]]]
    (Row.ofText "sqrt(2gcd(12, x))" = .ok row ∧
      ∃ cs, Reader.clean "sqrt(2gcd(12, x))" = .ok cs ∧
        List.Forall₂ Reader.Imported (Reader.calls cs) row.calls) ∧
    (Reader.clean "sqrt(2gcd(1))" = .ok ("sqrt(2".toList ++ "gcd(1))".toList) ∧
      Reader.callHere? "gcd(1))".toList = some (.function .gcd, ['1']) ∧
      Reader.Given ['1'] [['1']] ∧ [['1']].length ≠ Reader.Callee.arity (.function .gcd) ∧
      Reader.LeadsToCall "sqrt(2".toList ∧
      ∃ e : InputError, Row.ofText "sqrt(2gcd(1))" = .error (.input e) ∧
        e.code = "BAD_ARGUMENTS") := by
  intro row
  have hrow : Row.ofText "sqrt(2gcd(12, x))" = .ok row := by with_unfolding_all rfl
  have hclean : Reader.clean "sqrt(2gcd(1))" = .ok ("sqrt(2".toList ++ "gcd(1))".toList) := by
    with_unfolding_all rfl
  have hcall : Reader.callHere? "gcd(1))".toList = some (.function .gcd, ['1']) := by
    with_unfolding_all rfl
  have hgiven : Reader.Given ['1'] [['1']] := by
    refine ⟨[['1']], by simp, ?_, rfl, by with_unfolding_all rfl⟩
    exact List.forall_mem_singleton.mpr (.of_forall (by decide))
  have hcount : [['1']].length ≠ Reader.Callee.arity (.function .gcd) := by decide
  have hleads : Reader.LeadsToCall "sqrt(2".toList :=
    ⟨"sqrt(2gcd(12, x))", "gcd(12, x))".toList, row, by with_unfolding_all rfl,
      by with_unfolding_all rfl, hrow⟩
  exact ⟨⟨hrow, (ofText_calls "sqrt(2gcd(12, x))").1 row hrow⟩, hclean, hcall, hgiven, hcount,
    hleads, (ofText_calls "sqrt(2gcd(1))").2 _ _ _ _ _ hclean hcall hgiven hcount hleads⟩

/-- A text is read although two commas, and not one, are between the parentheses of a call with
two arguments: nothing stands between the commas. Of another text, with an empty exponent in front
of a call without its second argument, only the former is reported. -/
theorem Row.ofText_blank_argument :
    (Row.ofText "gcd(1,,2)" = .ok [.call .gcd [[.digit 1], [.digit 2]]] ∧
      Reader.calls "gcd(1,,2)".toList = [(.function .gcd, "1,,2".toList)] ∧
      '(' ∉ "1,,2".toList ∧ "1,,2".toList.count ',' ≠ Reader.Callee.arity (.function .gcd) - 1) ∧
    Row.ofText "2^()gcd(1)" = .error (.input (.emptyExponent 4)) :=
  ⟨⟨by with_unfolding_all rfl, by with_unfolding_all rfl, by decide, by decide⟩,
    by with_unfolding_all rfl⟩

end Mathpad
