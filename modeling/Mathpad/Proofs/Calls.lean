import Mathpad.Proofs.TextFaults

/-!
# Calls in a text

A name in front of a parenthesis calls what it names, with the text up to the partner of that
parenthesis. The calls in a text are listed in the order in which their names stand in it, and
the calls in a row in the order in which they would be written. A text is read as a row with
the very calls that the text has, and each of these has the rows that its arguments are
imported as: one for each piece of text between commas that is not blank.

The lists are compared piece by piece: the calls in a text are those of its first piece, of
the text that is left to be read inside of the piece, and of what follows.
-/
set_option autoImplicit false

namespace Mathpad

-- Statements about each character of a list are decided along the list.
attribute [local instance (high)] List.decidableBAll

/-! ## Calls in a row -/

mutual

/-- The calls in an item with the rows that they are given. Roots and fractions are calls, too. -/
def Item.calls : Item → List (Reader.Callee × List Row)
  | .token _ => []
  | .sqrt inner => (.sqrt, [inner]) :: Item.callsInRow inner
  | .fraction top bottom =>
    (.fraction, [top, bottom]) :: (Item.callsInRow top ++ Item.callsInRow bottom)
  | .parentheses inner => Item.callsInRow inner
  | .power exponent => Item.callsInRow exponent
  | .call f args => (.function f, args) :: Item.callsInRows args

/-- The calls in some items, in their order. -/
def Item.callsInRow : List Item → List (Reader.Callee × List Row)
  | [] => []
  | item :: items => item.calls ++ Item.callsInRow items

/-- The calls in some rows, in their order. -/
def Item.callsInRows : List (List Item) → List (Reader.Callee × List Row)
  | [] => []
  | row :: rows => Item.callsInRow row ++ Item.callsInRows rows

end

/-- The calls in a row, each with the rows that it is given, in the order of their names. -/
def Row.calls (row : Row) : List (Reader.Callee × List Row) := Item.callsInRow row

/-- The calls of two rows are those of one and then those of the other. -/
theorem Row.calls_append (row next : Row) : Row.calls (row ++ next) = row.calls ++ next.calls := by
  induction row with
  | nil => rfl
  | cons item items ih =>
    change item.calls ++ Row.calls (items ++ next) = item.calls ++ Row.calls items ++ next.calls
    rw [ih, List.append_assoc]

theorem Row.calls_singleton (item : Item) : Row.calls [item] = item.calls :=
  List.append_nil item.calls

theorem Item.callsInRows_eq (rows : List Row) : callsInRows rows = rows.flatMap Row.calls := by
  induction rows with
  | nil => rfl
  | cons row rows ih => rw [callsInRows, ih, List.flatMap_cons, Row.calls]

/-- Rows of tokens have no calls. -/
theorem Row.calls_tokens {row : Row} (h : ∀ item ∈ row, ∃ t, item = .token t) :
    row.calls = [] := by
  induction row with
  | nil => rfl
  | cons item items ih =>
    obtain ⟨t, rfl⟩ := h item (by simp)
    change [] ++ Row.calls items = []
    rw [ih fun i hi => h i (by simp [hi]), List.append_nil]

namespace Reader

/-! ## Calls in a text -/

/-- The call at the start of a text: the callee that its letters name, and what stands in the
parentheses behind them. -/
def callHere? (cs : List Char) : Option (Callee × List Char) :=
  match Text.dropBlanks (cs.dropWhile Char.isAlpha) with
  | '(' :: after => do
    let callee ← Callee.ofName? (String.ofList (cs.takeWhile Char.isAlpha))
    let (inner, _) ← Brackets.untilClosing 0 after
    return (callee, inner)
  | _ => none

/-- The calls in a text, each with what stands in its parentheses, in the order of their names. -/
def calls : List Char → List (Callee × List Char)
  | [] => []
  | c :: cs => (callHere? (c :: cs)).toList ++ calls cs

/-- A text begins with a call: a name, perhaps some blanks, and a text in parentheses. -/
def BeginsWithCall (cs : List Char) (callee : Callee) (inner : List Char) : Prop :=
  ∃ blanks rest, (∀ c ∈ blanks, Text.isBlank c = true) ∧ Brackets.Nested true inner ∧
    cs = callee.name.toList ++ (blanks ++ '(' :: (inner ++ ')' :: rest))

/-! ### Names -/

theorem Callee.ofName?_eq_some {name : String} {callee : Callee}
    (h : Callee.ofName? name = some callee) : name = callee.name := by
  unfold Callee.ofName? at h
  split_ifs at h with hsqrt hfrac
  · cases h
    exact hsqrt
  · cases h
    exact hfrac
  · obtain ⟨f, hf, rfl⟩ := Option.map_eq_some_iff.mp h
    have hbeq := List.find?_some (p := fun g : NamedFunction => g.name == name) hf
    exact (beq_iff_eq.mp hbeq).symm

theorem Callee.isAlpha_name (callee : Callee) : ∀ c ∈ callee.name.toList, c.isAlpha = true := by
  obtain ⟨c, tail, hname, hc, -, htail, -⟩ := name_letters callee
  rw [hname]
  exact List.forall_mem_cons.mpr ⟨hc, htail⟩

/-- Every callee is found by its name. -/
theorem Callee.ofName?_toList (callee : Callee) :
    Callee.ofName? (String.ofList callee.name.toList) = some callee := by
  obtain ⟨-, -, -, -, -, -, hcallee⟩ := name_letters callee
  rw [String.ofList_toList]
  exact hcallee

/-- No name ends in another one. -/
theorem Callee.eq_of_suffix {callee callee' : Callee}
    (h : callee'.name.toList <:+ callee.name.toList) : callee' = callee := by
  revert h
  rcases callee with _ | _ | (_ | _ | _) <;> rcases callee' with _ | _ | (_ | _ | _) <;> decide

/-- With letters in front of it, the name of a callee is none: no name is the end of another one. -/
theorem Callee.ofName?_append_eq_none {front : List Char} (hne : front ≠ []) (callee : Callee) :
    Callee.ofName? (String.ofList (front ++ callee.name.toList)) = none := by
  by_contra hsome
  obtain ⟨callee', h⟩ := Option.ne_none_iff_exists'.mp hsome
  have hname : front ++ callee.name.toList = callee'.name.toList := by
    rw [← Callee.ofName?_eq_some h, String.toList_ofList]
  obtain rfl := Callee.eq_of_suffix ⟨front, hname⟩
  exact hne (List.append_left_eq_self.mp hname)

/-- The last letters of a name, without the first one, name nothing. -/
theorem Callee.ofName?_suffix_eq_none {callee : Callee} {c : Char} {tail last : List Char}
    (hname : callee.name.toList = c :: tail) (h : last <:+ tail) :
    Callee.ofName? (String.ofList last) = none := by
  by_contra hsome
  obtain ⟨callee', hlast⟩ := Option.ne_none_iff_exists'.mp hsome
  obtain ⟨front, rfl⟩ := h
  have hlist : last = callee'.name.toList := by
    rw [← Callee.ofName?_eq_some hlast, String.toList_ofList]
  have hnone := Callee.ofName?_append_eq_none (List.cons_ne_nil c front) callee'
  rw [← hlist, List.cons_append, ← hname, Callee.ofName?_toList] at hnone
  cases hnone

/-- No callee has a name of one letter. -/
theorem Callee.ofName?_letter (c : Char) : Callee.ofName? (String.ofList [c]) = none := by
  by_contra hsome
  obtain ⟨callee, h⟩ := Option.ne_none_iff_exists'.mp hsome
  obtain ⟨d, tail, hname, -, hlong, -, -⟩ := name_letters callee
  rw [← Callee.ofName?_eq_some h, String.toList_ofList] at hname
  exact hlong (List.cons.inj hname).2.symm

/-! ### The call at the start -/

/-- A call begins where the text does. -/
theorem callHere?_eq_some_iff {cs : List Char} {callee : Callee} {inner : List Char} :
    callHere? cs = some (callee, inner) ↔ BeginsWithCall cs callee inner := by
  constructor
  · intro h
    unfold callHere? at h
    split at h
    · next after hafter =>
      obtain ⟨callee', hname, h⟩ := Option.bind_eq_some_iff.mp h
      obtain ⟨⟨inner', rest⟩, hclose, h⟩ := Option.bind_eq_some_iff.mp h
      cases h
      obtain ⟨hrest, hinner⟩ := Brackets.nested_of_untilClosing hclose
      refine ⟨(cs.dropWhile Char.isAlpha).takeWhile Text.isBlank, rest,
        fun c hc => List.mem_takeWhile_imp hc, hinner, ?_⟩
      rw [← hrest, ← hafter, Text.dropBlanks, List.takeWhile_append_dropWhile,
        ← Callee.ofName?_eq_some hname, String.toList_ofList, List.takeWhile_append_dropWhile]
    · cases h
  · rintro ⟨blanks, rest, hblanks, hinner, rfl⟩
    obtain ⟨htake, hdrop, hopen⟩ :=
      letters_before_open callee.isAlpha_name hblanks (inner ++ ')' :: rest)
    unfold callHere?
    rw [htake, hdrop, hopen, Callee.ofName?_toList]
    simp only [hinner.untilClosing_close]
    rfl

/-- Letters that name nothing call nothing. -/
theorem callHere?_of_unnamed {cs : List Char}
    (h : Callee.ofName? (String.ofList (cs.takeWhile Char.isAlpha)) = none) :
    callHere? cs = none := by
  unfold callHere?
  split
  · rw [h]
    rfl
  · rfl

/-- Letters call nothing without a parenthesis behind them. -/
theorem callHere?_of_free {cs : List Char}
    (h : (Text.dropBlanks (cs.dropWhile Char.isAlpha)).head? ≠ some '(') : callHere? cs = none := by
  unfold callHere?
  split
  · next heq =>
    rw [heq] at h
    exact absurd rfl h
  · rfl

/-- No call begins with anything but a letter. -/
theorem callHere?_of_not_letter {c : Char} (hc : c.isAlpha = false) (cs : List Char) :
    callHere? (c :: cs) = none := by
  apply callHere?_of_unnamed
  rw [List.takeWhile_cons_of_neg (by simp [hc])]
  rfl

/-! ### Texts side by side -/

/-- Nothing in front of the text is called with it: it begins neither with a letter nor with a
parenthesis, blanks apart. -/
def Stops (rest : List Char) : Prop :=
  (∀ c ∈ rest.head?, c.isAlpha = false) ∧ (Text.dropBlanks rest).head? ≠ some '('

/-- A call stops in front of a character that is no blank, no letter and no parenthesis. -/
theorem stops_cons {c : Char} (hblank : Text.isBlank c = false) (hletter : c.isAlpha = false)
    (hopen : c ≠ '(') (rest : List Char) : Stops (c :: rest) := by
  refine ⟨fun d hd => ?_, ?_⟩
  · rw [← Option.some.inj hd]
    exact hletter
  · rw [Text.dropBlanks, List.dropWhile_cons_of_neg (by simp [hblank])]
    simpa using hopen

/-- A call stops in front of blanks with nothing behind them. -/
theorem stops_blanks {blanks : List Char} (h : ∀ c ∈ blanks, Text.isBlank c = true) :
    Stops blanks := by
  refine ⟨fun c hc => isAlpha_of_isBlank (h c (List.mem_of_mem_head? hc)), ?_⟩
  rw [Text.dropBlanks, List.dropWhile_eq_nil_iff.mpr h]
  simp

/-- The call at the start of a text is not changed by what follows the text. -/
theorem callHere?_append {commas : Bool} {front cs rest : List Char}
    (h : Brackets.Nested commas (front ++ cs)) (hrest : Stops rest) :
    callHere? (cs ++ rest) = callHere? cs := by
  unfold callHere?
  rw [takeWhile_append_of_stop hrest.1, dropWhile_append_of_stop hrest.1]
  by_cases hnil : Text.dropBlanks (cs.dropWhile Char.isAlpha) = []
  · -- a parenthesis could only be found behind the text
    have hdrop : Text.dropBlanks (cs.dropWhile Char.isAlpha ++ rest) = Text.dropBlanks rest := by
      rw [Text.dropBlanks] at hnil
      rw [Text.dropBlanks, List.dropWhile_append, hnil]
      rfl
    rw [hnil, hdrop]
    split
    · next after hafter =>
      refine absurd ?_ hrest.2
      rw [hafter]
      rfl
    · rfl
  · have hdrop : Text.dropBlanks (cs.dropWhile Char.isAlpha ++ rest) =
        Text.dropBlanks (cs.dropWhile Char.isAlpha) ++ rest := by
      rw [Text.dropBlanks] at hnil
      rw [Text.dropBlanks, List.dropWhile_append, if_neg (by simpa using hnil)]
      rfl
    rw [hdrop]
    have hsuffix : Text.dropBlanks (cs.dropWhile Char.isAlpha) <:+ cs :=
      (List.dropWhile_suffix _).trans (List.dropWhile_suffix _)
    obtain ⟨d, ds, hcons⟩ := List.exists_cons_of_ne_nil hnil
    obtain ⟨before, hbefore⟩ := hsuffix
    rw [hcons] at hbefore ⊢
    by_cases hd : d = '('
    · -- its partner is in the text, too
      subst hd
      rw [← hbefore, ← List.append_assoc] at h
      obtain ⟨inner, next, rfl, hinner⟩ := h.closed
      simp only [List.cons_append, List.append_assoc, hinner.untilClosing_close]
      cases Callee.ofName? (String.ofList (cs.takeWhile Char.isAlpha)) <;> rfl
    · rw [List.cons_append]
      split
      · next heq => exact absurd (List.cons.inj heq).1 hd
      · split
        · next heq => exact absurd (List.cons.inj heq).1 hd
        · rfl

/-- The calls in two texts side by side. -/
theorem calls_append {commas : Bool} {cs rest : List Char} (h : Brackets.Nested commas cs)
    (hrest : Stops rest) : calls (cs ++ rest) = calls cs ++ calls rest := by
  have hall : ∀ front ds : List Char, front ++ ds = cs →
      calls (ds ++ rest) = calls ds ++ calls rest := by
    intro front ds hds
    induction ds generalizing front with
    | nil => rfl
    | cons d ds ih =>
      rw [← hds] at h
      have hhere := callHere?_append h hrest
      rw [List.cons_append] at hhere
      rw [List.cons_append, calls, calls, hhere, ih (front ++ [d]) (by rw [← hds]; simp),
        List.append_assoc]
  exact hall [] cs rfl

/-- Where no call begins, the calls are those of the rest. -/
theorem calls_of_none {front rest : List Char}
    (h : ∀ first last, first ++ last = front → last ≠ [] → callHere? (last ++ rest) = none) :
    calls (front ++ rest) = calls rest := by
  induction front with
  | nil => rfl
  | cons c front ih =>
    have hhere : callHere? (c :: (front ++ rest)) = none := h [] (c :: front) rfl (by simp)
    rw [List.cons_append, calls, hhere, ih]
    · rfl
    · rintro first last rfl hlast
      exact h (c :: first) last rfl hlast

/-- Nothing is called without letters. -/
theorem calls_skip {front : List Char} (h : ∀ c ∈ front, c.isAlpha = false) (rest : List Char) :
    calls (front ++ rest) = calls rest := by
  refine calls_of_none fun first last hlast hne => ?_
  obtain ⟨c, last, rfl⟩ := List.exists_cons_of_ne_nil hne
  exact callHere?_of_not_letter (h c (by rw [← hlast]; simp)) _

theorem calls_of_no_letter {cs : List Char} (h : ∀ c ∈ cs, c.isAlpha = false) : calls cs = [] := by
  have hall := calls_skip h []
  rw [List.append_nil] at hall
  exact hall

/-- Letters call nothing if neither they nor the last ones of them are a name. -/
theorem calls_unnamed {name rest : List Char} (hname : ∀ c ∈ name, c.isAlpha = true)
    (hrest : ∀ c ∈ rest.head?, c.isAlpha = false)
    (hnone : ∀ first last, first ++ last = name → Callee.ofName? (String.ofList last) = none) :
    calls (name ++ rest) = calls rest := by
  refine calls_of_none fun first last hlast _ => callHere?_of_unnamed ?_
  have hletters : ∀ c ∈ last, c.isAlpha = true := fun c hc => hname c (by rw [← hlast]; simp [hc])
  rw [takeWhile_append_of_stop hrest, List.takeWhile_eq_self_iff.mpr hletters]
  exact hnone first last hlast

/-- Letters call nothing if no parenthesis follows. -/
theorem calls_free {name rest : List Char} (hname : ∀ c ∈ name, c.isAlpha = true)
    (hrest : Stops rest) : calls (name ++ rest) = calls rest := by
  refine calls_of_none fun first last hlast _ => callHere?_of_free ?_
  have hletters : ∀ c ∈ last, c.isAlpha = true := fun c hc => hname c (by rw [← hlast]; simp [hc])
  rw [dropWhile_append_of_stop hrest.1, List.dropWhile_eq_nil_iff.mpr hletters, List.nil_append]
  exact hrest.2

/-- What stands between parentheses and what stands behind them. -/
theorem calls_parenthesized {commas : Bool} {inner : List Char}
    (h : Brackets.Nested commas inner) (rest : List Char) :
    calls ('(' :: (inner ++ ')' :: rest)) = calls inner ++ calls rest := by
  have hskip : ∀ {c : Char}, c.isAlpha = false → ∀ cs, calls (c :: cs) = calls cs :=
    fun hc cs => calls_skip (List.forall_mem_singleton.mpr hc) cs
  rw [hskip rfl,
    calls_append h (stops_cons (plain_of_mem (by decide)).2 rfl (by decide) rest), hskip rfl]

/-- A call, the calls in its parentheses and those behind them. -/
theorem calls_call (callee : Callee) {blanks inner : List Char}
    (hblanks : ∀ c ∈ blanks, Text.isBlank c = true) (hinner : Brackets.Nested true inner)
    (rest : List Char) :
    calls (callee.name.toList ++ (blanks ++ '(' :: (inner ++ ')' :: rest))) =
      (callee, inner) :: (calls inner ++ calls rest) := by
  have hhere := callHere?_eq_some_iff.mpr
    (show BeginsWithCall _ callee inner from ⟨blanks, rest, hblanks, hinner, rfl⟩)
  obtain ⟨c, tail, hname, -, -, htail, -⟩ := name_letters callee
  -- the last letters of the name call nothing themselves
  have hlast : calls (tail ++ (blanks ++ '(' :: (inner ++ ')' :: rest))) =
      calls (blanks ++ '(' :: (inner ++ ')' :: rest)) :=
    calls_unnamed htail (head_before_open hblanks _) fun first last hlast =>
      Callee.ofName?_suffix_eq_none hname ⟨first, hlast⟩
  rw [hname, List.cons_append] at hhere ⊢
  rw [calls, hhere, hlast, calls_skip fun c hc => isAlpha_of_isBlank (hblanks c hc),
    calls_parenthesized hinner]
  rfl

end Reader
end Mathpad
