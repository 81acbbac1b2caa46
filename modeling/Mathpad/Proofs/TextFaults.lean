import Mathpad.Proofs.Spelling
import Mathpad.Proofs.TypedRows

/-!
# What is wrong with a text

A text that is no row of items is complained about in words about the text. The one other
fault that reading could meet is a character that stands for nothing; after cleaning, that
could only be a closing parenthesis, and each of these is read together with its partner.
So the promise about reading is made for texts with matching parentheses, and every text
inside of a piece is such a text again.
-/
set_option autoImplicit false

namespace Mathpad

-- Statements about each character of a list are decided along the list.
attribute [local instance (high)] List.decidableBAll

/-- The fault is something about a text. -/
def Fault.IsInput (f : Fault) : Prop := ∃ e, f = .input e

namespace Reader

/-- A text is what trimming leaves of it, with blanks around. -/
theorem exists_trimBlanks (cs : List Char) : ∃ front back,
    (∀ c ∈ front, Text.isBlank c = true) ∧ (∀ c ∈ back, Text.isBlank c = true) ∧
      cs = front ++ (Text.trimBlanks cs ++ back) := by
  obtain ⟨ds, hds⟩ : ∃ ds, ds = cs.dropWhile Text.isBlank := ⟨_, rfl⟩
  -- the blanks at the end are what is dropped from the front of the reversed text
  have hends : ds = (ds.reverse.dropWhile Text.isBlank).reverse ++
      (ds.reverse.takeWhile Text.isBlank).reverse := by
    rw [← List.reverse_append, List.takeWhile_append_dropWhile, List.reverse_reverse]
  refine ⟨cs.takeWhile Text.isBlank, (ds.reverse.takeWhile Text.isBlank).reverse,
    fun c hc => List.mem_takeWhile_imp hc,
    fun c hc => List.mem_takeWhile_imp (List.mem_reverse.mp hc), ?_⟩
  rw [Text.trimBlanks, Text.trim, ← hds, ← hends, hds, List.takeWhile_append_dropWhile]

/-- Trimming blanks leaves the parentheses matching. -/
theorem nested_trimBlanks {cs : List Char} (h : Brackets.Nested true cs) :
    Brackets.Nested true (Text.trimBlanks cs) := by
  have hblank : ∀ c, Text.isBlank c = true → c ≠ '(' ∧ c ≠ ')' := by
    intro c hc
    constructor <;> (rintro rfl; rw [(plain_of_mem (by decide)).2] at hc; cases hc)
  obtain ⟨front, back, hfront, hback, hcs⟩ := exists_trimBlanks cs
  rw [hcs] at h
  exact h.of_between (fun c hc => hblank c (hfront c hc)) fun c hc => hblank c (hback c hc)

/-- A text as cleaning leaves it: its parentheses match, and only characters that may occur do. -/
structure Matched (cs : List Char) : Prop where
  nested : Brackets.Nested true cs
  allowed : ∀ c ∈ cs, isAllowed c = true

namespace Matched

variable {c : Char} {cs : List Char}

/-- A text without its first character is matched, if that is no parenthesis. -/
theorem tail (h : Matched (c :: cs)) (hopen : c ≠ '(') : Matched cs :=
  ⟨(h.nested.tail hopen).2, fun d hd => h.allowed d (by simp [hd])⟩

/-- Dropping characters from the front, but no parenthesis, leaves the text matched. -/
theorem dropWhile {p : Char → Bool} (hp : p '(' = false) (h : Matched cs) :
    Matched (cs.dropWhile p) :=
  ⟨h.nested.dropWhile hp, fun c hc => h.allowed c ((List.dropWhile_suffix p).subset hc)⟩

/-- Numerals and letters match by themselves. -/
theorem of_forall (h : ∀ c ∈ cs, Plain c ∧ c ∉ structural) : Matched cs := by
  refine ⟨.of_forall fun c hc => ?_, fun c hc => (h c hc).1.1⟩
  have hne : ∀ d ∈ structural, c ≠ d := by
    rintro d hd rfl
    exact (h c hc).2 hd
  exact ⟨hne _ (by decide), hne _ (by decide), hne _ (by decide)⟩

/-- What an opening parenthesis encloses is found, and so is what follows its partner. -/
theorem inside (h : Matched ('(' :: cs)) (total : Nat) (E : Fault → Prop) :
    Meets (inside total cs) (fun r => Matched r.1 ∧ Matched r.2) E := by
  obtain ⟨inner, rest, rfl, hinner, hrest⟩ := h.nested.split
  rw [inside_close hinner]
  exact ⟨⟨hinner, fun c hc => h.allowed c (by simp [hc])⟩,
    ⟨hrest, fun c hc => h.allowed c (by simp [hc])⟩⟩

/-- Trimming blanks leaves the text matched. -/
theorem trimBlanks (h : Matched cs) : Matched (Text.trimBlanks cs) := by
  refine ⟨nested_trimBlanks h.nested, fun c hc => h.allowed c ?_⟩
  obtain ⟨front, back, -, -, hcs⟩ := exists_trimBlanks cs
  rw [hcs]
  simp [hc]

/-- The arguments in a matched text are matched. -/
theorem arguments (h : Matched cs) : ∀ t ∈ Brackets.arguments cs, Matched t := by
  intro t ht
  obtain ⟨u, hu, rfl⟩ := List.mem_map.mp (List.mem_filter.mp ht).1
  refine trimBlanks ⟨h.nested.of_mem_cutAtCommas u hu, fun c hc => h.allowed c ?_⟩
  exact Brackets.mem_of_mem_cutAtCommas hu hc

end Matched

/-! ## Pieces -/

/-- What a piece leaves to be read is matched again. -/
def Piece.Matched (p : Piece) : Prop := p.Keeps Reader.Matched fun _ => True

/-- What is read behind a caret leaves matched texts to be read, or is a fault in the text. -/
theorem exponentPiece_matched (total minuses : Nat) {cs : List Char} (h : Matched cs) :
    Meets (exponentPiece total minuses cs) (fun r => r.1.Matched ∧ Matched r.2)
      Fault.IsInput := by
  match cs with
  | [] => exact ⟨_, rfl⟩
  | c :: cs =>
    -- behind a caret stand parentheses, a literal, or a single letter
    rw [exponentPiece]
    by_cases hopen : c = '('
    · rw [if_pos hopen]
      subst hopen
      exact (h.inside total Fault.IsInput).bind fun r hr => hr
    rw [if_neg hopen]
    by_cases hnumeral : isNumeral c = true
    · rw [if_pos hnumeral]
      refine ⟨.of_forall fun d hd => ?_, (h.tail hopen).dropWhile rfl⟩
      have hd' : isNumeral d = true := by
        rcases List.mem_cons.mp hd with rfl | hd
        · exact hnumeral
        · exact List.mem_takeWhile_imp hd
      exact ⟨plain_of_isNumeral hd', not_structural_of_isNumeral hd'⟩
    rw [if_neg hnumeral]
    by_cases hletter : c.isAlpha = true
    · rw [if_pos hletter]
      refine ⟨.of_forall fun d hd => ?_, h.tail hopen⟩
      rw [List.mem_singleton.mp hd]
      exact ⟨plain_of_isAlpha hletter, not_structural_of_isAlpha hletter⟩
    · rw [if_neg hletter]
      exact ⟨_, rfl⟩

/-- What is read behind a name leaves matched texts to be read, or is a fault in the text. -/
theorem namePiece_matched (total : Nat) (name : List Char) {cs : List Char} (h : Matched cs) :
    Meets (namePiece total name cs) (fun r => r.1.Matched ∧ Matched r.2) Fault.IsInput := by
  have hblanks : Matched (Text.dropBlanks cs) := h.dropWhile (plain_of_mem (by decide)).2
  unfold namePiece
  split
  · next after heq =>
    rw [heq] at hblanks
    split
    · exact ⟨trivial, h⟩
    · refine (hblanks.inside total Fault.IsInput).bind fun r hr => ?_
      dsimp only
      split
      · exact hr
      · exact ⟨_, rfl⟩
  · exact ⟨trivial, h⟩

/-- Of the characters that may occur, only a closing parenthesis stands for nothing. -/
theorem token_of_isAllowed {c : Char} (h : isAllowed c = true) (hblank : Text.isBlank c = false)
    (hletter : c.isAlpha = false) (h1 : c ≠ '(') (h2 : c ≠ ')') (h3 : c ≠ ',') (h4 : c ≠ '^') :
    ∃ t, Token.ofChar? c = some t := by
  rw [isAllowed, hblank, Bool.or_false, Char.isAlphanum, hletter, Bool.false_or] at h
  rcases Bool.or_eq_true_iff.mp h with hdigit | hmember
  · exact ⟨_, if_pos hdigit⟩
  · have hall : ∀ d ∈ "+-*/^().,".toList, d ≠ '(' → d ≠ ')' → d ≠ ',' → d ≠ '^' →
        (Token.ofChar? d).isSome = true := by decide
    exact Option.isSome_iff_exists.mp (hall c (List.contains_iff_mem.mp hmember) h1 h2 h3 h4)

/-- A piece leaves matched texts to be read, or is a fault in the text. -/
theorem nextPiece_matched (total : Nat) {c : Char} {cs : List Char} (h : Matched (c :: cs)) :
    Meets (nextPiece total c cs) (fun r => r.1.Matched ∧ Matched r.2) Fault.IsInput := by
  unfold nextPiece
  by_cases hblank : Text.isBlank c = true
  · have hopen : c ≠ '(' := by
      rintro rfl
      rw [(plain_of_mem (by decide)).2] at hblank
      cases hblank
    rw [if_pos hblank]
    exact ⟨trivial, h.tail hopen⟩
  rw [if_neg hblank]
  by_cases hopen : c = '('
  · rw [if_pos hopen]
    subst hopen
    exact (h.inside total Fault.IsInput).bind fun r hr => hr
  have htail := h.tail hopen
  rw [if_neg hopen]
  by_cases hcaret : c = '^'
  · rw [if_pos hcaret]
    exact exponentPiece_matched _ _ ((htail.dropWhile (plain_of_mem (by decide)).2).dropWhile rfl)
  rw [if_neg hcaret]
  by_cases hcomma : c = ','
  · rw [if_pos hcomma]
    exact ⟨_, rfl⟩
  rw [if_neg hcomma]
  by_cases hletter : c.isAlpha = true
  · rw [if_pos hletter]
    exact namePiece_matched total _ (htail.dropWhile rfl)
  rw [if_neg hletter]
  -- what is left stands for a token, since a matched text does not begin with the other parenthesis
  obtain ⟨t, ht⟩ := token_of_isAllowed (h.allowed c (by simp)) (by simpa using hblank)
    (by simpa using hletter) hopen (h.nested.tail hopen).1 hcomma hcaret
  rw [ht]
  exact ⟨trivial, htail⟩

/-! ## Texts -/

/-- Reading a matched text promises faults about texts only. -/
theorem promise_input : Promise Matched (fun _ => True) Fault.IsInput where
  piece total _ _ h := nextPiece_matched total h
  arguments h := h.arguments
  nil := trivial
  append _ _ := trivial
  group _ := trivial
  power _ _ _ := trivial
  call _ _ _ _ := trivial
  input e := ⟨e, rfl⟩

/-- Carets for double stars leave as many parentheses open as there were. -/
theorem openBehind_withCarets (cs : List Char) (n : Nat) :
    Brackets.openBehind n (withCarets cs) = Brackets.openBehind n cs := by
  induction cs using withCarets.induct generalizing n with
  | case1 cs ih =>
    -- neither a star nor a caret opens or closes anything
    rw [withCarets, Brackets.openBehind_char (by decide) (by decide), ih,
      Brackets.openBehind_char (by decide) (by decide),
      Brackets.openBehind_char (by decide) (by decide)]
  | case2 c cs hstars ih =>
    rw [withCarets.eq_2 _ _ hstars, Brackets.openBehind, Brackets.openBehind]
    simp only [ih]
  | case3 => rfl

/-- Replacing two stars by a caret brings in nothing but carets. -/
theorem mem_of_mem_withCarets {c : Char} {cs : List Char} (h : c ∈ withCarets cs) :
    c = '^' ∨ c ∈ cs := by
  induction cs using withCarets.induct with
  | case1 cs ih =>
    rw [withCarets] at h
    rcases List.mem_cons.mp h with rfl | h
    · exact Or.inl rfl
    · exact (ih h).imp_right fun hc => by simp [hc]
  | case2 d cs hstars ih =>
    rw [withCarets.eq_2 _ _ hstars] at h
    rcases List.mem_cons.mp h with rfl | h
    · exact Or.inr (by simp)
    · exact (ih h).imp_right fun hc => by simp [hc]
  | case3 => cases h

/-- Replacing two stars by a caret leaves the text matched. -/
theorem Matched.withCarets {cs : List Char} (h : Matched cs) : Matched (withCarets cs) := by
  refine ⟨Brackets.nested_iff_openBehind.mpr ?_, fun c hc => ?_⟩
  · rw [openBehind_withCarets]
    exact h.nested.openBehind_eq 0
  · rcases mem_of_mem_withCarets hc with rfl | hc
    · decide
    · exact h.allowed c hc

/-- A text is cleaned to a matched one, or is a fault. -/
theorem clean_matched (s : String) : Meets (clean s) Matched Fault.IsInput := by
  have hinput : ∀ e : InputError, Fault.IsInput (.input e) := fun e => ⟨e, rfl⟩
  unfold clean
  obtain ⟨cs, hcs⟩ : ∃ cs, cs = Text.trimBlanks s.toList := ⟨_, rfl⟩
  rw [← hcs]
  by_cases hempty : cs = []
  · rw [if_pos hempty]
    exact hinput _
  rw [if_neg hempty]
  by_cases hlong : lengthLimit < cs.length
  · rw [if_pos hlong]
    exact hinput _
  rw [if_neg hlong]
  split
  · exact hinput _
  · next hfind =>
    split
    · exact hinput _
    · next hunmatched =>
      refine Matched.withCarets ⟨Brackets.unmatched?_eq_none_iff.mp hunmatched, fun c hc => ?_⟩
      simpa using List.find?_eq_none.mp hfind c hc

end Reader

/-- A text that is no row of items is at fault itself. -/
theorem Row.ofText_isInput (s : String) : Meets (Row.ofText s) (fun _ => True) Fault.IsInput :=
  (Reader.clean_matched s).bind fun cs hcs => Reader.promise_input.readRow cs.length hcs

end Mathpad
