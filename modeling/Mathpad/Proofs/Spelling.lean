import Mathlib.Data.List.TakeWhile
import Mathpad.Proofs.Nesting
import Mathpad.Proofs.Pieces
import Mathpad.Proofs.Upgrading

/-!
# Texts that spell rows

A text spells a row if it is read as that row wherever it stands, as long as nothing but an
operator follows it. Literals, letters, groups, calls and powers spell what they look like,
and texts that are joined by an operator spell the rows joined by its token. A whole text
that spells an expression is read as that expression.
-/
set_option autoImplicit false

namespace Mathpad

-- What is said of each character in a list is decided along the list, not over all characters.
attribute [local instance (high)] List.decidableBAll

/-! ## Characters -/

namespace Text

/-- The search through a table goes on behind an entry that is not above the code. -/
theorem countAtMost_of_le {bounds : Array Nat} {code lo hi : Nat} (hlt : lo < hi)
    (h : bounds.getD ((lo + hi) / 2) 0 ≤ code) :
    countAtMost bounds code lo hi = countAtMost bounds code ((lo + hi) / 2 + 1) hi := by
  rw [countAtMost, if_pos hlt]
  exact if_pos h

/-- The search through a table goes on in front of an entry that is above the code. -/
theorem countAtMost_of_lt {bounds : Array Nat} {code lo hi : Nat} (hlt : lo < hi)
    (h : code < bounds.getD ((lo + hi) / 2) 0) :
    countAtMost bounds code lo hi = countAtMost bounds code lo ((lo + hi) / 2) := by
  rw [countAtMost, if_pos hlt]
  exact if_neg (by omega)

/-- The characters from the exclamation mark to the end of ASCII are not blank. -/
theorem isBlank_eq_false {c : Char} (h : 0x21 ≤ c.toNat) (h' : c.toNat < 0x85) :
    isBlank c = false := by
  generalize hn : c.toNat = n at h h'
  have h1 : n < blankBounds.getD ((0 + blankBounds.size) / 2) 0 := by
    change n < 0x2000
    omega
  have h2 : n < blankBounds.getD ((0 + 10) / 2) 0 := by
    change n < 0x86
    omega
  have h3 : blankBounds.getD ((0 + 5) / 2) 0 ≤ n := by
    change 0x1c ≤ n
    omega
  -- the search goes to the fourth boundary, which is the exclamation mark
  have hcount : countAtMost blankBounds n 0 blankBounds.size = 4 := by
    rw [countAtMost_of_lt (by decide) h1]
    change countAtMost blankBounds n 0 10 = 4
    rw [countAtMost_of_lt (by decide) h2]
    change countAtMost blankBounds n 0 5 = 4
    rw [countAtMost_of_le (by decide) h3]
    change countAtMost blankBounds n 3 5 = 4
    rw [countAtMost_of_lt (by decide) h']
    change countAtMost blankBounds n 3 4 = 4
    rw [countAtMost_of_le (by decide) h, countAtMost, if_neg (by decide)]
  rw [isBlank, inRanges, hn, hcount]
  rfl

/-- Letters lie within a range of codes. -/
theorem toNat_of_isAlpha {c : Char} (h : c.isAlpha = true) : 65 ≤ c.toNat ∧ c.toNat ≤ 122 := by
  delta Char.isAlpha Char.isUpper Char.isLower at h
  simp only [Bool.or_eq_true, Bool.and_eq_true, decide_eq_true_eq, ge_iff_le,
    UInt32.le_iff_toNat_le] at h
  change (65 ≤ c.toNat ∧ c.toNat ≤ 90) ∨ (97 ≤ c.toNat ∧ c.toNat ≤ 122) at h
  omega

/-- Digits lie within a range of codes. -/
theorem toNat_of_isDigit {c : Char} (h : c.isDigit = true) : 48 ≤ c.toNat ∧ c.toNat ≤ 57 := by
  simp only [Char.isDigit, Bool.and_eq_true, decide_eq_true_eq, ge_iff_le,
    UInt32.le_iff_toNat_le] at h
  change 48 ≤ c.toNat ∧ c.toNat ≤ 57 at h
  exact h

end Text

/-- The character of an operation. -/
def BinaryOp.char : BinaryOp → Char
  | add => '+'
  | subtract => '-'
  | multiply => '*'
  | divide => '/'

namespace Reader

/-! ## Runs of characters -/

section Runs

variable {p : Char → Bool} {rest : List Char}

/-- Dropping stops before the rest at the latest. -/
theorem dropWhile_append_of_stop (h : ∀ c ∈ rest.head?, p c = false) (cs : List Char) :
    (cs ++ rest).dropWhile p = cs.dropWhile p ++ rest := by
  have hrest : rest.dropWhile p = rest := by
    cases rest with
    | nil => rfl
    | cons d ds => rw [List.dropWhile_cons_of_neg (by simp [h d rfl])]
  rw [List.dropWhile_append, hrest]
  split
  · next hempty => rw [List.isEmpty_iff.mp hempty, List.nil_append]
  · rfl

/-- What is taken from the front of two texts is taken from the first one if the second begins with
something else. -/
theorem takeWhile_append_of_stop (h : ∀ c ∈ rest.head?, p c = false) (cs : List Char) :
    (cs ++ rest).takeWhile p = cs.takeWhile p := by
  have hrest : rest.takeWhile p = [] := by
    cases rest with
    | nil => rfl
    | cons d ds => rw [List.takeWhile_cons_of_neg (by simp [h d rfl])]
  rw [List.takeWhile_append, hrest, List.append_nil]
  split
  · next hall => exact ((List.takeWhile_prefix p).eq_of_length hall).symm
  · rfl

end Runs

/-- Dropping ends where it has to. -/
theorem head_dropWhile (p : Char → Bool) (cs : List Char) :
    ∀ c ∈ (cs.dropWhile p).head?, p c = false := by
  intro c hc
  have hdrop := List.head?_dropWhile_not p cs
  rw [Option.mem_def.mp hc] at hdrop
  simpa using hdrop

/-- Trimming goes up to what is not blank. -/
theorem trimBlanks_around {middle : List Char} (hne : middle ≠ [])
    (hhead : ∀ c ∈ middle.head?, Text.isBlank c = false)
    (hlast : ∀ c ∈ middle.getLast?, Text.isBlank c = false) (front back : List Char) :
    Text.trimBlanks (front ++ (middle ++ back)) = Text.dropBlanks front ++
      (middle ++ (back.reverse.dropWhile Text.isBlank).reverse) := by
  have hdrop : (front ++ (middle ++ back)).dropWhile Text.isBlank =
      Text.dropBlanks front ++ (middle ++ back) := by
    refine dropWhile_append_of_stop ?_ front
    rw [List.head?_append_of_ne_nil _ hne]
    exact hhead
  -- from the other end, the last character is the first
  have hback : ∀ c ∈ (middle.reverse ++ (Text.dropBlanks front).reverse).head?,
      Text.isBlank c = false := by
    rw [List.head?_append_of_ne_nil _ (by simpa using hne), List.head?_reverse]
    exact hlast
  rw [Text.trimBlanks, Text.trim, hdrop, List.reverse_append, List.reverse_append,
    List.append_assoc, dropWhile_append_of_stop hback]
  simp

/-- A text without blanks at its ends is left alone. -/
theorem trimBlanks_eq_self {cs : List Char} (hne : cs ≠ [])
    (hhead : ∀ c ∈ cs.head?, Text.isBlank c = false)
    (hlast : ∀ c ∈ cs.getLast?, Text.isBlank c = false) : Text.trimBlanks cs = cs := by
  have hall := trimBlanks_around hne hhead hlast [] []
  rwa [List.append_nil, List.nil_append, List.reverse_nil, List.dropWhile_nil, List.reverse_nil,
    List.append_nil] at hall

/-- A character that an expression is written with, and no blank. -/
def Plain (c : Char) : Prop := isAllowed c = true ∧ Text.isBlank c = false

theorem plain_of_isAlpha {c : Char} (h : c.isAlpha = true) : Plain c := by
  have hbounds := Text.toNat_of_isAlpha h
  exact ⟨by simp [isAllowed, Char.isAlphanum, h], Text.isBlank_eq_false (by omega) (by omega)⟩

/-- No letter is a blank. -/
theorem isAlpha_of_isBlank {c : Char} (h : Text.isBlank c = true) : c.isAlpha = false := by
  cases hc : c.isAlpha with
  | false => rfl
  | true =>
    rw [(plain_of_isAlpha hc).2] at h
    cases h

theorem plain_of_isDigit {c : Char} (h : c.isDigit = true) : Plain c := by
  have hbounds := Text.toNat_of_isDigit h
  exact ⟨by simp [isAllowed, Char.isAlphanum, h], Text.isBlank_eq_false (by omega) (by omega)⟩

/-- Operators, brackets, points and commas may be in an expression. -/
theorem plain_of_mem {c : Char} (h : c ∈ "+-*/^().,".toList) : Plain c := by
  have hcode : ∀ d ∈ "+-*/^().,".toList, 0x21 ≤ d.toNat ∧ d.toNat < 0x85 := by decide
  refine ⟨?_, Text.isBlank_eq_false (hcode c h).1 (hcode c h).2⟩
  rw [isAllowed, List.contains_iff_mem.mpr h, Bool.or_true, Bool.true_or]

theorem plain_of_isNumeral {c : Char} (h : isNumeral c = true) : Plain c := by
  rcases Bool.or_eq_true_iff.mp h with h | h
  · exact plain_of_isDigit h
  · rw [beq_iff_eq.mp h]
    exact plain_of_mem (by decide)

/-- The characters that decide on the structure of a text. -/
def structural : List Char := "(),*".toList

/-- Letters do not decide on the structure of a text. -/
theorem not_structural_of_isAlpha {c : Char} (h : c.isAlpha = true) : c ∉ structural := by
  intro hmem
  have hnot : ∀ d ∈ structural, d.isAlpha = false := by decide
  rw [hnot c hmem] at h
  cases h

/-- Digits and points do not decide on the structure of a text. -/
theorem not_structural_of_isNumeral {c : Char} (h : isNumeral c = true) : c ∉ structural := by
  intro hmem
  have hnot : ∀ d ∈ structural, isNumeral d = false := by decide
  rw [hnot c hmem] at h
  cases h

/-- A numeral stands for a token, and is no letter. -/
theorem token_of_isNumeral {c : Char} (h : isNumeral c = true) :
    (∃ t, Token.ofChar? c = some t) ∧ c.isAlpha = false := by
  rcases Bool.or_eq_true_iff.mp h with h | h
  · refine ⟨⟨_, if_pos h⟩, ?_⟩
    have hbounds := Text.toNat_of_isDigit h
    cases hletter : c.isAlpha with
    | false => rfl
    | true =>
      have := Text.toNat_of_isAlpha hletter
      omega
  · rw [beq_iff_eq.mp h]
    exact ⟨⟨.point, rfl⟩, rfl⟩

/-- No letter is part of a literal. -/
theorem isNumeral_of_isAlpha {c : Char} (h : c.isAlpha = true) : isNumeral c = false := by
  cases hn : isNumeral c with
  | false => rfl
  | true =>
    have hletter := (token_of_isNumeral hn).2
    rw [h] at hletter
    cases hletter

/-! ## Carets -/

/-- A character that does not make up two stars with the next one is left as it is. -/
theorem withCarets_cons {c : Char} {cs : List Char} (h : c = '*' → cs.head? ≠ some '*') :
    withCarets (c :: cs) = c :: withCarets cs := by
  match cs with
  | [] => rw [withCarets.eq_2 _ _ (by simp)]
  | d :: ds =>
    rw [withCarets.eq_2]
    rintro es rfl ⟨⟩
    exact h rfl rfl

/-! ## Cleaning -/

/-- A text from which cleaning only takes the blanks at its ends. -/
theorem clean_ofList {cs text : List Char} (htrim : Text.trimBlanks cs = text) (hne : text ≠ [])
    (hlen : text.length ≤ lengthLimit) (hallowed : ∀ c ∈ text, isAllowed c = true)
    (hnested : Brackets.Nested true text) (hcarets : withCarets text = text) :
    clean (String.ofList cs) = .ok text := by
  have hfind : text.find? (!isAllowed ·) = none := by
    rw [List.find?_eq_none]
    intro c hc
    simp [hallowed c hc]
  unfold clean
  simp only [String.toList_ofList, htrim, hne, if_false, not_lt.mpr hlen, hfind,
    hnested.unmatched?_eq_none, hcarets]

/-! ## Wordings -/

/-- What a text has to be apart from what it spells: its parentheses match, it has no characters
but those of expressions, and it has no two stars in a row, also not with what follows. -/
structure Wording (cs : List Char) : Prop where
  nested : Brackets.Nested false cs
  plain : ∀ c ∈ cs, Plain c
  carets : ∀ rest, withCarets (cs ++ rest) = cs ++ withCarets rest
  head : ∃ c tail, cs = c :: tail ∧ c ≠ '*'

namespace Wording

variable {cs next : List Char}

theorem ne_nil (h : Wording cs) : cs ≠ [] := by
  obtain ⟨c, tail, rfl, -⟩ := h.head
  simp

/-- Two texts that are well worded are so next to each other: the first does not end in a star that
would meet another one. -/
theorem append (h : Wording cs) (hn : Wording next) : Wording (cs ++ next) where
  nested := h.nested.append hn.nested
  plain c hc := by
    rcases List.mem_append.mp hc with hc | hc
    · exact h.plain c hc
    · exact hn.plain c hc
  carets rest := by rw [List.append_assoc, h.carets, hn.carets, List.append_assoc]
  head := by
    obtain ⟨c, tail, rfl, hc⟩ := h.head
    exact ⟨c, tail ++ next, rfl, hc⟩

/-- One character more in front, which is no parenthesis and no comma. -/
theorem cons {c : Char} (hp : Plain c) (h1 : c ≠ '(') (h2 : c ≠ ')') (h3 : c ≠ ',') (h4 : c ≠ '*')
    (h : Wording cs) : Wording (c :: cs) where
  nested := .char h1 h2 h3 h.nested
  plain d hd := by
    rcases List.mem_cons.mp hd with rfl | hd
    · exact hp
    · exact h.plain d hd
  carets rest := by
    rw [List.cons_append, withCarets_cons fun hc => absurd hc h4, h.carets, List.cons_append]
  head := ⟨c, cs, rfl, h4⟩

/-- Characters without any meaning for the structure of a text. -/
theorem of_forall (h : ∀ c ∈ cs, Plain c ∧ c ∉ structural) (hne : cs ≠ []) : Wording cs where
  nested := by
    refine .of_forall fun c hc => ?_
    have hne : ∀ d ∈ structural, c ≠ d := by
      rintro d hd rfl
      exact (h c hc).2 hd
    exact ⟨hne _ (by decide), hne _ (by decide), hne _ (by decide)⟩
  plain c hc := (h c hc).1
  carets rest := by
    clear hne
    induction cs with
    | nil => rfl
    | cons c cs ih =>
      have hstar : c ≠ '*' := by
        rintro rfl
        exact (h '*' (by simp)).2 (by decide)
      rw [List.cons_append, withCarets_cons fun hc => absurd hc hstar,
        ih fun d hd => h d (by simp [hd]), List.cons_append]
  head := by
    obtain ⟨c, tail, rfl⟩ := List.exists_cons_of_ne_nil hne
    refine ⟨c, tail, rfl, ?_⟩
    rintro rfl
    exact (h '*' (by simp)).2 (by decide)

/-- There are no blanks to trim. -/
theorem trimBlanks (h : Wording cs) : Text.trimBlanks cs = cs :=
  trimBlanks_eq_self h.ne_nil (fun c hc => (h.plain c (List.mem_of_mem_head? hc)).2)
    fun c hc => (h.plain c (List.mem_of_mem_getLast? hc)).2

/-- Nothing is cleaned away. -/
theorem clean_eq (h : Wording cs) (hlen : cs.length ≤ lengthLimit) :
    clean (String.ofList cs) = .ok cs := by
  have hcarets := h.carets []
  rw [List.append_nil] at hcarets
  exact clean_ofList h.trimBlanks h.ne_nil hlen (fun c hc => (h.plain c hc).1)
    h.nested.withCommas (hcarets.trans (List.append_nil cs))

/-- Two texts with an operator between them. -/
theorem operator {c : Char} (hc : c ∈ "+-*/^".toList) (h : Wording cs) (hn : Wording next) :
    Wording (cs ++ c :: next) where
  nested := by
    have hcode : ∀ d ∈ "+-*/^".toList, d ≠ '(' ∧ d ≠ ')' ∧ d ≠ ',' := by decide
    exact h.nested.append (.char (hcode c hc).1 (hcode c hc).2.1 (hcode c hc).2.2 hn.nested)
  plain d hd := by
    have hsub : ∀ d ∈ "+-*/^".toList, d ∈ "+-*/^().,".toList := by decide
    rcases List.mem_append.mp hd with hd | hd
    · exact h.plain d hd
    · rcases List.mem_cons.mp hd with rfl | hd
      · exact plain_of_mem (hsub d hc)
      · exact hn.plain d hd
  carets rest := by
    obtain ⟨d, tail, rfl, hd⟩ := hn.head
    have hstar : c = '*' → (d :: tail ++ rest).head? ≠ some '*' := by
      rintro - h
      exact hd (Option.some.inj h)
    rw [List.append_assoc, h.carets, List.cons_append, withCarets_cons hstar, hn.carets]
    simp
  head := by
    obtain ⟨d, tail, rfl, hd⟩ := h.head
    exact ⟨d, tail ++ c :: next, rfl, hd⟩

/-- A text in parentheses. It may have commas. -/
theorem group {inner : List Char} (hn : Brackets.Nested true inner) (hp : ∀ c ∈ inner, Plain c)
    (hc : ∀ rest, withCarets (inner ++ ')' :: rest) = inner ++ withCarets (')' :: rest)) :
    Wording ('(' :: inner ++ [')']) where
  nested := .group hn .nil
  plain d hd := by
    rcases List.mem_append.mp hd with hd | hd
    · rcases List.mem_cons.mp hd with rfl | hd
      · exact plain_of_mem (by decide)
      · exact hp d hd
    · rw [List.mem_singleton.mp hd]
      exact plain_of_mem (by decide)
  carets rest := by
    rw [List.cons_append, List.cons_append, List.append_assoc, List.singleton_append,
      withCarets_cons (by simp), hc, withCarets_cons (by simp)]
    simp
  head := ⟨'(', inner ++ [')'], rfl, by decide⟩

end Wording

/-! ## Reading one piece -/

/-- Nothing, or an operator and whatever is behind it. -/
def Separate (rest : List Char) : Prop := ∀ c ∈ rest.head?, c ∈ "+-*/^".toList

theorem separate_nil : Separate [] := by simp [Separate]

theorem separate_cons {c : Char} (h : c ∈ "+-*/^".toList) (rest : List Char) :
    Separate (c :: rest) := by
  intro d hd
  rw [← Option.some.inj hd]
  exact h

/-- No blank, letter, numeral or parenthesis comes next. -/
theorem Separate.head {rest : List Char} (h : Separate rest) {c : Char} (hc : c ∈ rest.head?) :
    Text.isBlank c = false ∧ c.isAlpha = false ∧ isNumeral c = false ∧ c ≠ '(' := by
  have hall : ∀ d ∈ "+-*/^".toList, d.isAlpha = false ∧ isNumeral d = false ∧ d ≠ '(' ∧
      d ∈ "+-*/^().,".toList := by decide
  obtain ⟨h1, h2, h3, h4⟩ := hall c (h c hc)
  exact ⟨(plain_of_mem h4).2, h1, h2, h3⟩

/-- A character that stands for a token is read as that. -/
theorem readRow_token {total : Nat} {c : Char} {t : Token} (hp : Plain c)
    (ht : Token.ofChar? c = some t) (hletter : c.isAlpha = false) (cs : List Char) :
    readRow total (c :: cs) = do return .token t :: (← readRow total cs) := by
  have hopen : c ≠ '(' := by
    rintro rfl
    cases ht
  have hcaret : c ≠ '^' := by
    rintro rfl
    cases ht
  have hcomma : c ≠ ',' := by
    rintro rfl
    cases ht
  have hpiece : nextPiece total c cs = .ok (.finished [.token t], cs) := by
    unfold nextPiece
    rw [if_neg (by simp [hp.2]), if_neg hopen, if_neg hcaret, if_neg hcomma,
      if_neg (by simp [hletter])]
    simp only [ht]
  rw [readRow_cons hpiece]
  rfl

/-- A letter begins a name, which reaches as far as there are letters. -/
theorem nextPiece_letter {c : Char} (hc : c.isAlpha = true) (total : Nat) (cs : List Char) :
    nextPiece total c cs =
      namePiece total (c :: cs.takeWhile Char.isAlpha) (cs.dropWhile Char.isAlpha) := by
  have hne : ∀ d : Char, d.isAlpha = false → c ≠ d := by
    rintro d hd rfl
    rw [hd] at hc
    cases hc
  unfold nextPiece
  rw [if_neg (by simp [(plain_of_isAlpha hc).2]), if_neg (hne _ rfl), if_neg (hne _ rfl),
    if_neg (hne _ rfl), if_pos hc]

/-- Blanks and a parenthesis do not begin with a letter. -/
theorem head_before_open {blanks : List Char} (h : ∀ c ∈ blanks, Text.isBlank c = true)
    (after : List Char) : ∀ c ∈ (blanks ++ '(' :: after).head?, c.isAlpha = false := by
  intro c hc
  cases blanks with
  | nil =>
    rw [← Option.some.inj hc]
    rfl
  | cons b bs =>
    rw [← Option.some.inj hc]
    exact isAlpha_of_isBlank (h b (by simp))

/-- The letters in front of a parenthesis, and what comes behind them. -/
theorem letters_before_open {name blanks : List Char} (hname : ∀ c ∈ name, c.isAlpha = true)
    (hblanks : ∀ c ∈ blanks, Text.isBlank c = true) (after : List Char) :
    (name ++ (blanks ++ '(' :: after)).takeWhile Char.isAlpha = name ∧
      (name ++ (blanks ++ '(' :: after)).dropWhile Char.isAlpha = blanks ++ '(' :: after ∧
      Text.dropBlanks (blanks ++ '(' :: after) = '(' :: after := by
  have hstop := head_before_open hblanks after
  have hopen : ∀ c ∈ ('(' :: after).head?, Text.isBlank c = false := by
    intro c hc
    rw [← Option.some.inj hc]
    exact (plain_of_mem (by decide)).2
  refine ⟨?_, ?_, ?_⟩
  · rw [takeWhile_append_of_stop hstop, List.takeWhile_eq_self_iff.mpr hname]
  · rw [dropWhile_append_of_stop hstop, List.dropWhile_eq_nil_iff.mpr hname, List.nil_append]
  · rw [Text.dropBlanks, dropWhile_append_of_stop hopen, List.dropWhile_eq_nil_iff.mpr hblanks,
      List.nil_append]

/-- Two letters or more in front of a parenthesis are called, or complained about. -/
theorem namePiece_open {total : Nat} {name cs after : List Char} (hlong : name.length ≠ 1)
    (hopen : Text.dropBlanks cs = '(' :: after) :
    namePiece total name cs = (do
      let (inner, rest) ← inside total after
      match Callee.ofName? (String.ofList name) with
      | some callee => return (.call callee inner, rest)
      | none => .error (.input (.unknownFunction (String.ofList name)))) := by
  unfold namePiece
  rw [hopen]
  split
  · next heq =>
    cases heq
    exact if_neg hlong
  · next hne => exact absurd rfl (hne after)

/-- A single letter, and letters that are not in front of a parenthesis, are variables. -/
theorem namePiece_free {name cs : List Char}
    (h : name.length = 1 ∨ (Text.dropBlanks cs).head? ≠ some '(') (total : Nat) :
    namePiece total name cs =
      .ok (.finished (name.map fun c => .var (String.singleton c)), cs) := by
  unfold namePiece
  split
  · next heq =>
    rw [heq] at h
    rw [if_pos (h.resolve_right fun hne => hne rfl)]
    rfl
  · rfl

/-- What stands inside matching parentheses is found in front of the one that closes them. -/
theorem inside_close {commas : Bool} {inner : List Char} (h : Brackets.Nested commas inner)
    (total : Nat) (rest : List Char) : inside total (inner ++ ')' :: rest) = .ok (inner, rest) := by
  rw [inside, h.untilClosing_close]

/-- Carets are written in texts that are joined by commas as in each of them. -/
theorem withCarets_intercalate {texts : List (List Char)}
    (h : ∀ t ∈ texts, ∀ rest : List Char, rest.head? ≠ some '*' →
      withCarets (t ++ rest) = t ++ withCarets rest) {rest : List Char}
    (hrest : rest.head? ≠ some '*') :
    withCarets ([','].intercalate texts ++ rest) = [','].intercalate texts ++ withCarets rest := by
  induction texts with
  | nil => rfl
  | cons t ts ih =>
    have hts := ih fun u hu => h u (by simp [hu])
    match ts, hts with
    | [], _ => simpa using h t (by simp) rest hrest
    | u :: us, hts =>
      rw [List.intercalate_cons_cons, List.append_assoc, List.append_assoc,
        h t (by simp) _ (by simp), List.singleton_append, withCarets_cons (by simp), hts]
      simp

/-- What is true of a comma and of all characters of some texts is true of the texts joined by
commas. -/
theorem forall_mem_intercalate {P : Char → Prop} (hcomma : P ',') {texts : List (List Char)}
    (h : ∀ t ∈ texts, ∀ c ∈ t, P c) : ∀ c ∈ [','].intercalate texts, P c := by
  induction texts with
  | nil => simp
  | cons t ts ih =>
    have hts := ih fun u hu => h u (by simp [hu])
    match ts, hts with
    | [], _ => simpa using h t (by simp)
    | u :: us, hts =>
      intro c hc
      rw [List.intercalate_cons_cons, List.append_assoc] at hc
      rcases List.mem_append.mp hc with hc | hc
      · exact h t (by simp) c hc
      · rcases List.mem_cons.mp hc with rfl | hc
        · exact hcomma
        · exact hts c hc

/-- The name of what is called: letters, and more than one. -/
theorem name_letters (callee : Callee) :
    ∃ c tail, callee.name.toList = c :: tail ∧ c.isAlpha = true ∧ tail ≠ [] ∧
      (∀ d ∈ tail, d.isAlpha = true) ∧ Callee.ofName? callee.name = some callee := by
  match callee with
  | .sqrt => exact ⟨'s', ['q', 'r', 't'], rfl, rfl, by simp, by decide, rfl⟩
  | .fraction => exact ⟨'f', ['r', 'a', 'c'], rfl, rfl, by simp, by decide, rfl⟩
  | .function .sine => exact ⟨'s', ['i', 'n'], rfl, rfl, by simp, by decide, rfl⟩
  | .function .cosine => exact ⟨'c', ['o', 's'], rfl, rfl, by simp, by decide, rfl⟩
  | .function .gcd => exact ⟨'g', ['c', 'd'], rfl, rfl, by simp, by decide, rfl⟩

/-- The name of a function or a root is well worded. -/
theorem wording_name (callee : Callee) : Wording callee.name.toList := by
  obtain ⟨c, tail, hname, hc, -, htail, -⟩ := name_letters callee
  rw [hname]
  refine Wording.of_forall (fun d hd => ?_) (by simp)
  have hd' : d.isAlpha = true := by
    rcases List.mem_cons.mp hd with rfl | hd
    · exact hc
    · exact htail d hd
  exact ⟨plain_of_isAlpha hd', not_structural_of_isAlpha hd'⟩

/-- A name and a pair of parentheses behind it, with or without blanks between them, are a call
with the text in the parentheses. -/
theorem nextPiece_call (callee : Callee) (blanks : List Char)
    (hblanks : ∀ c ∈ blanks, Text.isBlank c = true) {commas : Bool} {inner : List Char}
    (h : Brackets.Nested commas inner) :
    ∃ c tail, callee.name.toList = c :: tail ∧ ∀ (total : Nat) (rest : List Char),
      nextPiece total c (tail ++ (blanks ++ '(' :: (inner ++ ')' :: rest))) =
        .ok (.call callee inner, rest) := by
  obtain ⟨c, tail, hname, hc, hlong, htail, hcallee⟩ := name_letters callee
  refine ⟨c, tail, hname, fun total rest => ?_⟩
  obtain ⟨htake, hdrop, hopen⟩ := letters_before_open htail hblanks (inner ++ ')' :: rest)
  rw [nextPiece_letter hc, htake, hdrop, namePiece_open (by simpa using hlong) hopen,
    inside_close h, ok_bind, ← hname, String.ofList_toList]
  simp only [hcallee]
  rfl

/-! ## Spelling -/

/-- A text is read as a row wherever it stands, if nothing but an operator follows it. -/
structure Spells (cs : List Char) (row : Row) : Prop extends Wording cs where
  reads : ∀ (total : Nat) {rest : List Char}, Separate rest →
    readRow total (cs ++ rest) = do return row ++ (← readRow total rest)

namespace Spells

variable {cs next : List Char} {row row' : Row}

/-- A whole text is read as the row that it spells. -/
theorem readRow_eq (h : Spells cs row) (total : Nat) : readRow total cs = .ok row := by
  have hall := h.reads total separate_nil
  rw [List.append_nil, readRow, ok_bind, List.append_nil] at hall
  exact hall

/-- A text that spells a row, and is not too long, is read as that row. -/
theorem row_eq (h : Spells cs row) (hlen : cs.length ≤ lengthLimit) :
    Row.ofText (String.ofList cs) = .ok row := by
  rw [Row.ofText, h.clean_eq hlen, ok_bind, h.readRow_eq]

/-- A text that spells an expression, and is not too long, is read as that expression. -/
theorem ofText_eq {e : Expr} (h : Spells cs row) (hlen : cs.length ≤ lengthLimit)
    (he : Derives .sum row e) : Expr.ofText (String.ofList cs) = .ok e := by
  rw [Expr.ofText, h.row_eq hlen, ok_bind]
  exact he.ofRow_eq

/-- Two texts with a sign between them. -/
theorem operator (op : BinaryOp) (h : Spells cs row) (hn : Spells next row') :
    Spells (cs ++ op.char :: next) (row ++ .token op.token :: row') where
  toWording := h.toWording.operator (by cases op <;> decide) hn.toWording
  reads total rest hrest := by
    have hp : Plain op.char := plain_of_mem (by cases op <;> decide)
    have ht : Token.ofChar? op.char = some op.token := by cases op <;> rfl
    have hletter : op.char.isAlpha = false := by cases op <;> rfl
    rw [List.append_assoc, List.cons_append, h.reads total (separate_cons (by cases op <;> decide) _),
      readRow_token hp ht hletter, hn.reads total hrest]
    cases readRow total rest <;> simp

/-- A text behind a minus sign. -/
theorem minus (h : Spells cs row) : Spells ('-' :: cs) (Item.minus :: row) where
  toWording := h.toWording.cons (plain_of_mem (by decide)) (by decide) (by decide) (by decide)
    (by decide)
  reads total rest hrest := by
    rw [List.cons_append, readRow_token (t := .subtract) (plain_of_mem (by decide)) rfl rfl,
      h.reads total hrest]
    cases readRow total rest <;> rfl

/-- A text in parentheses. -/
theorem group (h : Spells cs row) : Spells ('(' :: cs ++ [')']) [.parentheses row] where
  toWording := .group h.nested.withCommas h.plain fun _ => h.carets _
  reads total rest hrest := by
    have hblank : ¬ Text.isBlank '(' = true := by
      simp [(plain_of_mem (c := '(') (by decide)).2]
    have hpiece : nextPiece total '(' (cs ++ ')' :: rest) = .ok (.group cs, rest) := by
      unfold nextPiece
      rw [if_neg hblank, if_pos rfl, inside_close h.nested]
      rfl
    rw [List.cons_append, List.cons_append, List.append_assoc, List.singleton_append,
      readRow_cons hpiece]
    simp only [h.readRow_eq, ok_bind]
    rfl

/-- A letter is a variable. -/
theorem letter {c : Char} (hc : c.isAlpha = true) : Spells [c] [.var (String.singleton c)] where
  toWording := Wording.of_forall (fun d hd => by
    rw [List.mem_singleton.mp hd]
    exact ⟨plain_of_isAlpha hc, not_structural_of_isAlpha hc⟩) (by simp)
  reads total rest hrest := by
    have htake : rest.takeWhile Char.isAlpha = [] ∧ rest.dropWhile Char.isAlpha = rest := by
      match rest, hrest with
      | [], _ => exact ⟨rfl, rfl⟩
      | d :: ds, hrest =>
        obtain ⟨-, hletter, -, -⟩ := hrest.head rfl
        simp [hletter]
    have hpiece : nextPiece total c rest = .ok (.finished [.var (String.singleton c)], rest) := by
      rw [nextPiece_letter hc, htake.1, htake.2, namePiece_free (.inl List.length_singleton)]
      rfl
    rw [List.singleton_append, readRow_cons hpiece]

/-- Digits and points are the tokens that they look like. -/
theorem numerals (h : ∀ c ∈ cs, isNumeral c = true) (hne : cs ≠ []) :
    Spells cs (Row.ofChars cs) where
  toWording := Wording.of_forall (fun c hc =>
    ⟨plain_of_isNumeral (h c hc), not_structural_of_isNumeral (h c hc)⟩) hne
  reads total rest hrest := by
    -- every numeral is a piece of its own
    have hall : ∀ ds : List Char, (∀ c ∈ ds, isNumeral c = true) →
        readRow total (ds ++ rest) = do return Row.ofChars ds ++ (← readRow total rest) := by
      intro ds hds
      induction ds with
      | nil => simp [Row.ofChars]
      | cons c ds ih =>
        have hc := hds c (by simp)
        obtain ⟨⟨t, ht⟩, hletter⟩ := token_of_isNumeral hc
        rw [List.cons_append, readRow_token (plain_of_isNumeral hc) ht hletter,
          ih fun d hd => hds d (by simp [hd])]
        cases readRow total rest <;> simp [Row.ofChars, ht]
    exact hall cs h

/-! ### Calls -/

/-- The rows that some texts spell. -/
theorem readRows_eq {texts : List (List Char)} {rows : List Row}
    (h : List.Forall₂ Spells texts rows) : readRows texts = .ok rows := by
  rw [readRows_eq_mapM]
  exact mapM_of_forall₂ (h.imp fun _ _ ht => ht.readRow_eq _)

/-- Arguments that are joined by commas are found again, as no comma outside of parentheses is in
any of them. -/
theorem arguments_intercalate {texts : List (List Char)} (h : ∀ t ∈ texts, Wording t)
    (hne : texts ≠ []) : Brackets.arguments ([','].intercalate texts) = texts := by
  have hmap : texts.map Text.trimBlanks = texts := by
    conv_rhs => rw [← List.map_id texts]
    exact List.map_congr_left fun t ht => (h t ht).trimBlanks
  rw [Brackets.arguments, Brackets.Nested.cutAtCommas_intercalate (fun t ht => (h t ht).nested) hne,
    hmap, List.filter_eq_self]
  intro t ht
  simpa using (h t ht).ne_nil

/-- The text of a call. -/
theorem call {f : NamedFunction} {texts : List (List Char)} {rows : List Row}
    (h : List.Forall₂ Spells texts rows) (hlen : texts.length = f.arity) :
    Spells (f.name.toList ++ ('(' :: ([','].intercalate texts) ++ [')'])) [.call f rows] := by
  have hall : ∀ t ∈ texts, Wording t := by
    intro t ht
    obtain ⟨row, -, hrow⟩ := exists_of_forall₂_right h.flip ht
    exact hrow.toWording
  have hnested : Brackets.Nested true ([','].intercalate texts) :=
    Brackets.nested_intercalate fun t ht => (hall t ht).nested.withCommas
  have hplain : ∀ d ∈ [','].intercalate texts, Plain d :=
    forall_mem_intercalate (plain_of_mem (by decide)) fun t ht => (hall t ht).plain
  have hcarets : ∀ rest, withCarets ([','].intercalate texts ++ ')' :: rest) =
      [','].intercalate texts ++ withCarets (')' :: rest) := fun rest =>
    withCarets_intercalate (fun t ht rest _ => (hall t ht).carets rest) (by simp)
  refine ⟨(wording_name (.function f)).append (.group hnested hplain hcarets), ?_⟩
  intro total rest _
  have hne : texts ≠ [] := by
    rintro rfl
    cases f <;> cases hlen
  -- the name is read up to the parenthesis, and that up to its partner
  obtain ⟨c, tail, hname, hpiece⟩ := nextPiece_call (.function f) [] (by simp) hnested
  simp only [List.nil_append] at hpiece
  have htext : f.name.toList ++ ('(' :: [','].intercalate texts ++ [')']) ++ rest =
      c :: (tail ++ '(' :: ([','].intercalate texts ++ ')' :: rest)) := by
    rw [show f.name.toList = c :: tail from hname]
    simp
  rw [htext, readRow_cons (hpiece total rest)]
  dsimp only
  rw [arguments_intercalate hall hne, if_neg (by simpa [Callee.arity] using hlen), readRows_eq h]
  rfl

end Spells

/-! ### Powers -/

/-- A text is read as a row when it stands behind a caret, if nothing but an operator follows. -/
structure SpellsExponent (cs : List Char) (row : Row) : Prop extends Wording cs where
  piece : ∃ inner, readRow inner.length inner = .ok row ∧
    ∀ (total : Nat) {rest : List Char}, Separate rest →
      nextPiece total '^' (cs ++ rest) = .ok (.power 0 inner, rest)

/-- An exponent without blanks and minus signs in front of it. -/
theorem nextPiece_caret {c : Char} (hblank : Text.isBlank c = false) (hminus : c ≠ '-')
    (total : Nat) (cs : List Char) : nextPiece total '^' (c :: cs) = exponentPiece total 0 (c :: cs) := by
  have hcaret : ¬ Text.isBlank '^' = true := by
    simp [(plain_of_mem (c := '^') (by decide)).2]
  have hdrop : Text.dropBlanks (c :: cs) = c :: cs := by
    rw [Text.dropBlanks, List.dropWhile_cons_of_neg]
    simp [hblank]
  unfold nextPiece
  rw [if_neg hcaret, if_neg (by decide), if_pos rfl]
  simp only [hdrop]
  rw [List.takeWhile_cons_of_neg (by simpa using hminus),
    List.dropWhile_cons_of_neg (by simpa using hminus)]
  rfl

namespace SpellsExponent

variable {cs : List Char} {row : Row}

/-- The parentheses around an exponent are not part of it. -/
theorem group (h : Spells cs row) : SpellsExponent ('(' :: cs ++ [')']) row where
  toWording := h.group.toWording
  piece := by
    refine ⟨cs, h.readRow_eq _, fun total rest _ => ?_⟩
    rw [List.cons_append, List.cons_append, List.append_assoc, List.singleton_append,
      nextPiece_caret (plain_of_mem (by decide)).2 (by decide), exponentPiece, if_pos rfl,
      inside_close h.nested]
    rfl

/-- Digits and points behind a caret are an exponent as far as they go. -/
theorem numerals (h : ∀ c ∈ cs, isNumeral c = true) (hne : cs ≠ []) :
    SpellsExponent cs (Row.ofChars cs) where
  toWording := (Spells.numerals h hne).toWording
  piece := by
    refine ⟨cs, (Spells.numerals h hne).readRow_eq _, fun total rest hrest => ?_⟩
    obtain ⟨c, ds, rfl⟩ := List.exists_cons_of_ne_nil hne
    have hc := h c (by simp)
    have hds : ∀ d ∈ ds, isNumeral d = true := fun d hd => h d (by simp [hd])
    have hne : ∀ d : Char, isNumeral d = false → c ≠ d := by
      rintro d hd rfl
      rw [hd] at hc
      cases hc
    have hstop : rest.takeWhile isNumeral = [] ∧ rest.dropWhile isNumeral = rest := by
      match rest, hrest with
      | [], _ => exact ⟨rfl, rfl⟩
      | d :: ds, hrest =>
        obtain ⟨-, -, h3, -⟩ := hrest.head rfl
        simp [h3]
    rw [List.cons_append, nextPiece_caret (plain_of_isNumeral hc).2 (hne _ rfl), exponentPiece,
      if_neg (hne _ rfl), if_pos hc, List.takeWhile_append_of_pos hds,
      List.dropWhile_append_of_pos hds, hstop.1, hstop.2, List.append_nil]

/-- A single letter behind a caret is an exponent. -/
theorem letter {c : Char} (hc : c.isAlpha = true) :
    SpellsExponent [c] [.var (String.singleton c)] where
  toWording := (Spells.letter hc).toWording
  piece := by
    refine ⟨[c], (Spells.letter hc).readRow_eq _, fun total rest _ => ?_⟩
    have hne : ∀ d : Char, d.isAlpha = false → c ≠ d := by
      rintro d hd rfl
      rw [hd] at hc
      cases hc
    rw [List.singleton_append, nextPiece_caret (plain_of_isAlpha hc).2 (hne _ rfl), exponentPiece,
      if_neg (hne _ rfl), if_neg (by simp [isNumeral_of_isAlpha hc]), if_pos hc]

end SpellsExponent

/-- A text and an exponent behind a caret. -/
theorem Spells.power {cs x : List Char} {row exponent : Row} (h : Spells cs row)
    (hx : SpellsExponent x exponent) (hne : exponent ≠ []) :
    Spells (cs ++ '^' :: x) (row ++ [.power exponent]) where
  toWording := h.toWording.operator (by decide) hx.toWording
  reads total rest hrest := by
    obtain ⟨inner, hinner, hpiece⟩ := hx.piece
    obtain ⟨item, items, rfl⟩ := List.exists_cons_of_ne_nil hne
    rw [List.append_assoc, List.cons_append, h.reads total (separate_cons (by decide) _),
      readRow_cons (hpiece total hrest)]
    simp only [hinner, ok_bind]
    cases readRow total rest <;> simp

end Reader
end Mathpad
