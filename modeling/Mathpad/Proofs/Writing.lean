import Mathlib.Tactic.IntervalCases
import Mathpad.Proofs.Everywhere
import Mathpad.Proofs.Spelling
import Mathpad.Proofs.TypedRows

/-!
# Rows written as text

A row is written with a blank between its items, and with blanks on both sides of
everything that stands in parentheses. The blanks are what makes reading certain: two
letters side by side are not taken for a name, and two stars not for a power. Reading gives
back the row that was written.

The statement proved along a row has a text behind it, which begins with a blank if with
anything (`Apart`). The text in a pair of parentheses is read by itself, so there the same
statement is used again with a single blank behind.
-/
set_option autoImplicit false

namespace Mathpad

/-! ## Writing -/

/-- A text with a blank on either side. -/
def padded (text : List Char) : List Char := ' ' :: (text ++ [' '])

/-- Texts in parentheses, with commas between them. -/
def bracketed (texts : List (List Char)) : List Char :=
  '(' :: ([','].intercalate (texts.map padded) ++ [')'])

namespace Item

mutual

/-- The text of an item. -/
def toText : Item → List Char
  | token t => t.text.toList
  | sqrt inner => "sqrt".toList ++ bracketed [[' '].intercalate (itemTexts inner)]
  | fraction top bottom => "frac".toList ++
      bracketed [[' '].intercalate (itemTexts top), [' '].intercalate (itemTexts bottom)]
  | parentheses inner => bracketed [[' '].intercalate (itemTexts inner)]
  | power exponent => '^' :: bracketed [[' '].intercalate (itemTexts exponent)]
  | call f args => f.name.toList ++ bracketed (rowTexts args)

/-- The texts of items, in their order. -/
def itemTexts : List Item → List (List Char)
  | [] => []
  | item :: items => item.toText :: itemTexts items

/-- The texts of rows, in their order. -/
def rowTexts : List (List Item) → List (List Char)
  | [] => []
  | row :: rows => [' '].intercalate (itemTexts row) :: rowTexts rows

end

/-- An item that can be written so that it is read back, whatever is inside of it: a digit is one
of the ten, a variable one letter, a function has its arguments, and no row is empty but that
of a pair of parentheses. -/
def WritableHere : Item → Prop
  | token (.digit value) => 0 ≤ value ∧ value ≤ 9
  | token (.var name) => IsLetter name
  | token _ => True
  | sqrt inner => inner ≠ []
  | fraction top bottom => top ≠ [] ∧ bottom ≠ []
  | parentheses _ => True
  | power exponent => exponent ≠ []
  | call f args => args.length = f.arity ∧ ∀ row ∈ args, row ≠ []

end Item

/-- The characters of the text of a row: its items, with single blanks between them. -/
def Row.chars (row : Row) : List Char := [' '].intercalate (Item.itemTexts row)

/-- The text of a row. -/
def Row.toText (row : Row) : String := String.ofList row.chars

theorem Item.rowTexts_eq_map (rows : List Row) : Item.rowTexts rows = rows.map Row.chars := by
  induction rows with
  | nil => rfl
  | cons row rows ih => rw [Item.rowTexts, ih, List.map_cons, Row.chars]

@[simp] theorem Row.chars_singleton (item : Item) : Row.chars [item] = item.toText := by
  simp [Row.chars, Item.itemTexts]

theorem Row.chars_cons_cons (item next : Item) (row : Row) :
    Row.chars (item :: next :: row) = item.toText ++ ' ' :: Row.chars (next :: row) := by
  rw [Row.chars, Item.itemTexts, Item.itemTexts, List.intercalate_cons_cons, List.append_assoc]
  rfl

namespace Reader

/-! ## Cleaning -/

theorem isBlank_space : Text.isBlank ' ' = true := by decide +kernel

/-- A text that is read as it stands, if no star follows it. -/
structure Cleaned (cs : List Char) : Prop where
  nested : Brackets.Nested false cs
  allowed : ∀ c ∈ cs, isAllowed c = true
  carets : ∀ {rest : List Char}, rest.head? ≠ some '*' →
    withCarets (cs ++ rest) = cs ++ withCarets rest

namespace Cleaned

variable {cs next : List Char}

theorem nil : Cleaned [] where
  nested := .nil
  allowed := by simp
  carets _ := rfl

theorem of_wording (h : Wording cs) : Cleaned cs where
  nested := h.nested
  allowed c hc := (h.plain c hc).1
  carets _ := h.carets _

/-- A single character that is no parenthesis and no comma. -/
theorem char {c : Char} (hp : isAllowed c = true) (h1 : c ≠ '(') (h2 : c ≠ ')') (h3 : c ≠ ',') :
    Cleaned [c] where
  nested := .char h1 h2 h3 .nil
  allowed d hd := by
    rw [List.mem_singleton.mp hd]
    exact hp
  carets hrest := withCarets_cons fun _ => hrest

/-- Two texts are read as they stand next to each other, unless a star might meet a star. -/
theorem append (h : Cleaned cs) (hn : Cleaned next) (hstar : next.head? ≠ some '*')
    (hne : next ≠ []) : Cleaned (cs ++ next) where
  nested := h.nested.append hn.nested
  allowed c hc := by
    rcases List.mem_append.mp hc with hc | hc
    · exact h.allowed c hc
    · exact hn.allowed c hc
  carets {rest} hrest := by
    -- a second star for the end of the first text would have to come from the second one
    have hhead : (next ++ rest).head? = next.head? := List.head?_append_of_ne_nil _ hne
    rw [List.append_assoc, h.carets (hhead ▸ hstar), hn.carets hrest, List.append_assoc]

/-- A blank in front. -/
theorem blank (h : Cleaned cs) : Cleaned (' ' :: cs) where
  nested := .char (by decide) (by decide) (by decide) h.nested
  allowed c hc := by
    rcases List.mem_cons.mp hc with rfl | hc
    · simp [isAllowed, isBlank_space]
    · exact h.allowed c hc
  carets hrest := by
    rw [List.cons_append, withCarets_cons (by simp), h.carets hrest, List.cons_append]

/-- Two texts with a blank between them. -/
theorem join (h : Cleaned cs) (hn : Cleaned next) : Cleaned (cs ++ ' ' :: next) :=
  h.append hn.blank (by simp) (by simp)

theorem padded (h : Cleaned cs) : Cleaned (padded cs) := (h.join nil).blank

/-- Texts that are joined by commas are balanced as the arguments of a call are. -/
theorem nested_padded {texts : List (List Char)} (h : ∀ t ∈ texts, Cleaned t) :
    Brackets.Nested true ([','].intercalate (texts.map Mathpad.padded)) := by
  refine Brackets.nested_intercalate fun t ht => ?_
  obtain ⟨u, hu, rfl⟩ := List.mem_map.mp ht
  exact (h u hu).padded.nested.withCommas

/-- Texts in parentheses. -/
theorem bracketed {texts : List (List Char)} (h : ∀ t ∈ texts, Cleaned t) :
    Cleaned (bracketed texts) := by
  have hpadded : ∀ t ∈ texts.map Mathpad.padded, Cleaned t := by
    intro t ht
    obtain ⟨u, hu, rfl⟩ := List.mem_map.mp ht
    exact (h u hu).padded
  have hallowed : ∀ c ∈ [','].intercalate (texts.map Mathpad.padded), isAllowed c = true :=
    forall_mem_intercalate (by decide) fun t ht => (hpadded t ht).allowed
  refine ⟨.group (nested_padded h) .nil, fun c hc => ?_, fun {rest} _ => ?_⟩
  · rcases List.mem_cons.mp hc with rfl | hc
    · decide
    rcases List.mem_append.mp hc with hc | hc
    · exact hallowed c hc
    · rw [List.mem_singleton.mp hc]
      decide
  · rw [Mathpad.bracketed, List.cons_append, withCarets_cons (by simp), List.append_assoc,
      List.singleton_append,
      withCarets_intercalate (fun t ht rest => (hpadded t ht).carets) (by simp),
      withCarets_cons (by simp)]
    simp

end Cleaned

/-- A text that is read as it stands, also when the blanks at its ends are trimmed. -/
structure Written (cs : List Char) : Prop extends Cleaned cs where
  ne_nil : cs ≠ []
  head : ∀ c ∈ cs.head?, Text.isBlank c = false
  last : ∀ c ∈ cs.getLast?, Text.isBlank c = false

/-- The blanks at the ends of a text that has none there itself are trimmed. -/
theorem trimBlanks_padded {cs : List Char} (hne : cs ≠ [])
    (hhead : ∀ c ∈ cs.head?, Text.isBlank c = false)
    (hlast : ∀ c ∈ cs.getLast?, Text.isBlank c = false) : Text.trimBlanks (padded cs) = cs := by
  have hall := trimBlanks_around hne hhead hlast [' '] [' ']
  rw [Text.dropBlanks, List.reverse_singleton, List.dropWhile_cons_of_pos isBlank_space] at hall
  rw [padded, ← List.singleton_append, hall]
  simp

namespace Written

variable {cs next : List Char}

/-- What is well worded begins and ends with no blank. -/
theorem of_wording (h : Wording cs) : Written cs where
  toCleaned := .of_wording h
  ne_nil := h.ne_nil
  head c hc := (h.plain c (List.mem_of_mem_head? hc)).2
  last c hc := (h.plain c (List.mem_of_mem_getLast? hc)).2

/-- A single character that is no bracket and no comma is read as it stands. -/
theorem char {c : Char} (hp : Plain c) (h1 : c ≠ '(') (h2 : c ≠ ')') (h3 : c ≠ ',') :
    Written [c] where
  toCleaned := .char hp.1 h1 h2 h3
  ne_nil := by simp
  head d hd := by
    rw [← Option.some.inj hd]
    exact hp.2
  last d hd := by
    rw [← Option.some.inj hd]
    exact hp.2

/-- Texts in parentheses are read as they stand, and begin and end with those. -/
theorem bracketed {texts : List (List Char)} (h : ∀ t ∈ texts, Cleaned t) :
    Written (bracketed texts) where
  toCleaned := .bracketed h
  ne_nil := by simp [Mathpad.bracketed]
  head d hd := by
    rw [← Option.some.inj hd]
    exact (plain_of_mem (by decide)).2
  last d hd := by
    rw [Mathpad.bracketed, ← List.cons_append, List.getLast?_append] at hd
    rw [← Option.some.inj hd]
    exact (plain_of_mem (by decide)).2

/-- Two texts are written next to each other, unless a star might meet a star. -/
theorem append (h : Written cs) (hn : Written next) (hstar : next.head? ≠ some '*') :
    Written (cs ++ next) where
  toCleaned := h.toCleaned.append hn.toCleaned hstar hn.ne_nil
  ne_nil := by simp [h.ne_nil]
  head c hc := by
    rw [List.head?_append_of_ne_nil _ h.ne_nil] at hc
    exact h.head c hc
  last c hc := by
    rw [List.getLast?_append_of_ne_nil _ hn.ne_nil] at hc
    exact hn.last c hc

/-- Two texts are written with a blank between them, which a star cannot meet. -/
theorem join (h : Written cs) (hn : Written next) : Written (cs ++ ' ' :: next) where
  toCleaned := h.toCleaned.join hn.toCleaned
  ne_nil := by simp
  head c hc := by
    rw [List.head?_append_of_ne_nil _ h.ne_nil] at hc
    exact h.head c hc
  last c hc := by
    rw [List.getLast?_append_of_ne_nil _ (by simp), List.getLast?_cons_of_ne_nil hn.ne_nil] at hc
    exact hn.last c hc

end Written

/-! ## Reading what is written -/

/-- Nothing, or a blank and whatever is behind it. -/
def Apart (rest : List Char) : Prop := ∀ c ∈ rest.head?, c = ' '

theorem apart_nil : Apart [] := by simp [Apart]

theorem apart_blank (rest : List Char) : Apart (' ' :: rest) := by simp [Apart]

/-- A text is read as a row wherever it stands, if nothing but a blank follows it. -/
def ReadAs (cs : List Char) (row : Row) : Prop :=
  ∀ (total : Nat) {rest : List Char}, Apart rest →
    readRow total (cs ++ rest) = do return row ++ (← readRow total rest)

/-- A blank in front of a text is skipped. -/
theorem readRow_blank (total : Nat) (cs : List Char) :
    readRow total (' ' :: cs) = readRow total cs := by
  have hpiece : nextPiece total ' ' cs = .ok (.finished [], cs) := by
    unfold nextPiece
    rw [if_pos isBlank_space]
  rw [readRow_cons hpiece]
  exact bind_pure _

namespace ReadAs

variable {cs : List Char} {row : Row}

theorem nil : ReadAs [] [] := by
  intro total rest _
  exact (bind_pure _).symm

/-- Two texts with a blank between them. -/
theorem join (h : ReadAs cs row) {next : List Char} {row' : Row} (hn : ReadAs next row') :
    ReadAs (cs ++ ' ' :: next) (row ++ row') := by
  intro total rest hrest
  rw [List.append_assoc, List.cons_append, h total (apart_blank _), readRow_blank, hn total hrest]
  cases readRow total rest <;> simp

theorem readRow_eq (h : ReadAs cs row) (total : Nat) : readRow total cs = .ok row := by
  have hall := h total apart_nil
  rw [List.append_nil, readRow, ok_bind, List.append_nil] at hall
  exact hall

/-- A text between blanks is read alone. -/
theorem readRow_padded (h : ReadAs cs row) (total : Nat) : readRow total (padded cs) = .ok row := by
  rw [padded, readRow_blank, h total (apart_blank []), readRow_blank, readRow, ok_bind,
    List.append_nil]
  rfl

end ReadAs

/-- Rows that are read one by one are read together. -/
theorem readRows_map {text : Row → List Char} {rows : List Row}
    (h : ∀ row ∈ rows, ReadAs (text row) row) : readRows (rows.map text) = .ok rows := by
  rw [readRows_eq_mapM, List.mapM_map]
  exact (mapM_eq_map fun row hr => (h row hr).readRow_eq _).trans (by rw [List.map_id'])

/-- The texts between parentheses and commas are found, and their blanks taken away. -/
theorem arguments_padded {texts : List (List Char)} (h : ∀ t ∈ texts, Written t)
    (hne : texts ≠ []) : Brackets.arguments ([','].intercalate (texts.map padded)) = texts := by
  have hnested : ∀ t ∈ texts.map padded, Brackets.Nested false t := by
    intro t ht
    obtain ⟨u, hu, rfl⟩ := List.mem_map.mp ht
    exact (h u hu).toCleaned.padded.nested
  have htrim : (texts.map padded).map Text.trimBlanks = texts := by
    rw [List.map_map]
    conv_rhs => rw [← List.map_id texts]
    exact List.map_congr_left fun t ht => trimBlanks_padded (h t ht).ne_nil (h t ht).head (h t ht).last
  rw [Brackets.arguments, Brackets.Nested.cutAtCommas_intercalate hnested (by simpa using hne),
    htrim, List.filter_eq_self]
  intro t ht
  simpa using (h t ht).ne_nil

/-! ### The kinds of items -/

/-- A token is one character, which is read as the token. -/
theorem token_readAs {t : Token} (h : (Item.token t).WritableHere) :
    Written t.text.toList ∧ ReadAs t.text.toList [.token t] := by
  -- all characters but letters stand for a token by themselves
  have hchar : ∀ {c : Char}, Token.ofChar? c = some t → Plain c → c.isAlpha = false →
      c ≠ '(' → c ≠ ')' → c ≠ ',' → Written [c] ∧ ReadAs [c] [.token t] := by
    intro c ht hp hletter h1 h2 h3
    refine ⟨.char hp h1 h2 h3, fun total rest _ => ?_⟩
    rw [List.singleton_append, readRow_token hp ht hletter]
    rfl
  cases t with
  | add | subtract | multiply | divide | point =>
    exact hchar rfl (plain_of_mem (by decide)) rfl (by decide) (by decide) (by decide)
  | digit value =>
    obtain ⟨h0, h9⟩ := h
    obtain ⟨n, rfl⟩ := Int.eq_ofNat_of_zero_le h0
    have hn : n ≤ 9 := by omega
    interval_cases n <;>
      exact hchar rfl (plain_of_isDigit rfl) rfl (by decide) (by decide) (by decide)
  | var name =>
    obtain ⟨c, hc, rfl⟩ := h
    have htext : (Token.var (String.singleton c)).text.toList = [c] :=
      String.toList_singleton c
    rw [htext]
    refine ⟨.of_wording (Spells.letter hc).toWording, fun total rest hrest => ?_⟩
    have hstop : rest.takeWhile Char.isAlpha = [] ∧ rest.dropWhile Char.isAlpha = rest := by
      match rest, hrest with
      | [], _ => exact ⟨rfl, rfl⟩
      | d :: ds, hrest =>
        obtain rfl := hrest d rfl
        exact ⟨rfl, rfl⟩
    -- one letter is a variable, even with a parenthesis behind it
    have hname : namePiece total [c] rest = .ok (.finished [.var (String.singleton c)], rest) := by
      unfold namePiece
      split
      · rw [if_pos List.length_singleton]
        rfl
      · rfl
    have hpiece : nextPiece total c rest = .ok (.finished [.var (String.singleton c)], rest) := by
      rw [nextPiece_letter hc, hstop.1, hstop.2, hname]
    rw [List.singleton_append, readRow_cons hpiece]
    rfl

/-- Parentheses around a text are an item with the row of the text in it. -/
theorem parentheses_readAs {cs : List Char} {row : Row} (h : Cleaned cs) (hr : ReadAs cs row) :
    ReadAs (bracketed [cs]) [.parentheses row] := by
  intro total rest _
  have hpiece : nextPiece total '(' (padded cs ++ ')' :: rest) = .ok (.group (padded cs), rest) := by
    unfold nextPiece
    rw [if_neg (by simp [(plain_of_mem (c := '(') (by decide)).2]), if_pos rfl,
      inside_close h.padded.nested]
    rfl
  have htext : bracketed [cs] ++ rest = '(' :: (padded cs ++ ')' :: rest) := by simp [bracketed]
  rw [htext, readRow_cons hpiece]
  simp only [hr.readRow_padded, ok_bind]
  rfl

/-- Parentheses behind a caret are an exponent, which must not be empty. -/
theorem power_readAs {cs : List Char} {row : Row} (h : Cleaned cs) (hr : ReadAs cs row)
    (hne : row ≠ []) : ReadAs ('^' :: bracketed [cs]) [.power row] := by
  intro total rest _
  have hpiece : nextPiece total '^' ('(' :: (padded cs ++ ')' :: rest)) =
      .ok (.power 0 (padded cs), rest) := by
    rw [nextPiece_caret (plain_of_mem (by decide)).2 (by decide), exponentPiece, if_pos rfl,
      inside_close h.padded.nested]
    rfl
  have htext : '^' :: bracketed [cs] ++ rest = '^' :: '(' :: (padded cs ++ ')' :: rest) := by
    simp [bracketed]
  obtain ⟨item, items, rfl⟩ := List.exists_cons_of_ne_nil hne
  rw [htext, readRow_cons hpiece]
  simp only [hr.readRow_padded, ok_bind]
  rfl

/-- A name with as many texts as it takes is an item with the rows of the texts in it. -/
theorem callee_readAs (callee : Callee) (text : Row → List Char) {rows : List Row}
    (hlen : rows.length = callee.arity) (h : ∀ row ∈ rows, Written (text row))
    (hr : ∀ row ∈ rows, ReadAs (text row) row) :
    Written (callee.name.toList ++ bracketed (rows.map text)) ∧
      ReadAs (callee.name.toList ++ bracketed (rows.map text)) [callee.item rows] := by
  have hwritten : ∀ t ∈ rows.map text, Written t := by
    intro t ht
    obtain ⟨row, hrow, rfl⟩ := List.mem_map.mp ht
    exact h row hrow
  -- every name that can be called takes an argument
  have hne : rows.map text ≠ [] := by
    intro hnil
    have hpos : 0 < callee.arity := by
      rcases callee with _ | _ | f
      · decide
      · decide
      · cases f <;> decide
    rw [← hlen, List.map_eq_nil_iff.mp hnil] at hpos
    exact absurd hpos (by decide)
  have hbracketed : Written (bracketed (rows.map text)) :=
    .bracketed fun t ht => (hwritten t ht).toCleaned
  refine ⟨(Written.of_wording (wording_name callee)).append hbracketed (by simp [bracketed]), ?_⟩
  intro total rest _
  obtain ⟨c, tail, hname, hpiece⟩ := nextPiece_call callee [] (by simp)
    (Cleaned.nested_padded fun t ht => (hwritten t ht).toCleaned)
  simp only [List.nil_append] at hpiece
  have htext : callee.name.toList ++ bracketed (rows.map text) ++ rest =
      c :: (tail ++ '(' :: ([','].intercalate ((rows.map text).map padded) ++ ')' :: rest)) := by
    rw [hname, bracketed]
    simp only [List.cons_append, List.append_assoc, List.nil_append]
  rw [htext, readRow_cons (hpiece total rest)]
  dsimp only
  -- the arguments are the texts that were written, as many as are asked for
  rw [arguments_padded hwritten hne, if_neg (by simpa using hlen), readRows_map hr]
  rfl

end Reader

/-! ## Items and rows -/

open Reader

/-- A row of items that are read back is read back; only the empty one leaves no text. -/
theorem Row.chars_readAs {row : Row}
    (h : ∀ i ∈ row, Written i.toText ∧ ReadAs i.toText [i]) :
    Cleaned row.chars ∧ (row ≠ [] → Written row.chars) ∧ ReadAs row.chars row := by
  induction row with
  | nil => exact ⟨.nil, fun hne => absurd rfl hne, .nil⟩
  | cons item row ih =>
    obtain ⟨hw, hr⟩ := h item (by simp)
    match row with
    | [] =>
      rw [chars_singleton]
      exact ⟨hw.toCleaned, fun _ => hw, hr⟩
    | next :: row =>
      obtain ⟨-, hwritten, hreads⟩ := ih fun i hi => h i (by simp [hi])
      have hjoin := hw.join (hwritten (by simp))
      rw [chars_cons_cons]
      exact ⟨hjoin.toCleaned, fun _ => hjoin, hr.join hreads⟩

namespace Item

/-- Every item that can be written is read back, whatever it stands next to. -/
theorem Everywhere.readAs {item : Item} (h : item.Everywhere WritableHere) :
    Written item.toText ∧ ReadAs item.toText [item] := by
  induction h with
  | @intro item here _ ih =>
    have hrow : ∀ row ∈ item.slots,
        Cleaned row.chars ∧ (row ≠ [] → Written row.chars) ∧ ReadAs row.chars row :=
      fun row hr => Row.chars_readAs (ih row hr)
    -- a function and an item with a name are written alike, with their rows in parentheses
    cases item with
    | token t => exact token_readAs here
    | sqrt inner =>
      obtain ⟨-, hwritten, hreads⟩ := hrow inner (by simp [slots])
      have hlen : [inner].length = Callee.arity .sqrt := rfl
      exact callee_readAs .sqrt Row.chars hlen (by simpa using hwritten here)
        (by simpa using hreads)
    | fraction top bottom =>
      obtain ⟨-, htop, htop'⟩ := hrow top (by simp [slots])
      obtain ⟨-, hbottom, hbottom'⟩ := hrow bottom (by simp [slots])
      have hlen : [top, bottom].length = Callee.arity .fraction := rfl
      exact callee_readAs .fraction Row.chars hlen
        (by simpa using ⟨htop here.1, hbottom here.2⟩) (by simpa using ⟨htop', hbottom'⟩)
    | parentheses inner =>
      obtain ⟨hcleaned, -, hreads⟩ := hrow inner (by simp [slots])
      exact ⟨.bracketed (List.forall_mem_singleton.mpr hcleaned),
        parentheses_readAs hcleaned hreads⟩
    | power exponent =>
      obtain ⟨hcleaned, -, hreads⟩ := hrow exponent (by simp [slots])
      have hcaret : Written ['^'] := .char (plain_of_mem (by decide)) (by decide) (by decide)
        (by decide)
      have hbracketed : Written (bracketed [Row.chars exponent]) :=
        .bracketed (List.forall_mem_singleton.mpr hcleaned)
      exact ⟨hcaret.append hbracketed (by simp), power_readAs hcleaned hreads here⟩
    | call f args =>
      obtain ⟨hlen, hne⟩ := here
      rw [toText, rowTexts_eq_map]
      exact callee_readAs (.function f) Row.chars hlen (fun row hr => (hrow row hr).2.1 (hne row hr))
        fun row hr => (hrow row hr).2.2

end Item

/-- The text of a row is read as that row: text import undoes writing. -/
theorem Row.ofText_toText (row : Row) (hne : row ≠ []) (h : row.Everywhere Item.WritableHere)
    (hlen : row.toText.length ≤ lengthLimit) : Row.ofText row.toText = .ok row := by
  obtain ⟨-, hwritten, hreads⟩ := Row.chars_readAs fun i hi => (h i hi).readAs
  have hw := hwritten hne
  have hend : ([] : List Char).head? ≠ some '*' := by simp
  have hcarets := hw.carets hend
  rw [List.append_nil] at hcarets
  rw [toText, String.length_ofList] at hlen
  have hclean : clean row.toText = .ok row.chars :=
    clean_ofList (trimBlanks_eq_self hw.ne_nil hw.head hw.last) hw.ne_nil hlen hw.allowed
      hw.nested.withCommas (hcarets.trans (List.append_nil _))
  rw [ofText, hclean, ok_bind]
  exact hreads.readRow_eq _

theorem Row.ofText_toText_sqrt :
    Row.Everywhere Item.WritableHere
      [.sqrt [.digit 2, .var "x"], .power [.parentheses []], .call .gcd [[.digit 4], [.var "y"]]] ∧
    Row.ofText "sqrt( 2 x ) ^( (  ) ) gcd( 4 , y )" = .ok
      [.sqrt [.digit 2, .var "x"], .power [.parentheses []],
        .call .gcd [[.digit 4], [.var "y"]]] := by
  have h : Row.Everywhere Item.WritableHere
      [.sqrt [.digit 2, .var "x"], .power [.parentheses []],
        .call .gcd [[.digit 4], [.var "y"]]] := by
    have hx : IsLetter "x" := ⟨'x', rfl, rfl⟩
    have hy : IsLetter "y" := ⟨'y', rfl, rfl⟩
    simp [Item.everywhere_iff, Item.slots, Item.WritableHere, Item.digit, Item.var, hx, hy,
      NamedFunction.arity]
  have htext : Row.toText [.sqrt [.digit 2, .var "x"], .power [.parentheses []],
      .call .gcd [[.digit 4], [.var "y"]]] = "sqrt( 2 x ) ^( (  ) ) gcd( 4 , y )" := by
    decide +kernel
  have hread := Row.ofText_toText _ (by simp) h (by rw [htext]; decide)
  rw [htext] at hread
  exact ⟨h, hread⟩

end Mathpad
