import Mathpad.Item.Basic
import Mathpad.Item.Brackets

/-
Reading a row of items from text, such as `frac(1, 2) + sqrt(x)^2`.

A text is first cleaned: only the characters that expressions are made of may occur, parentheses must
match, and `**` is the same as `^`. Then it is taken piece by piece. A piece is either finished, or
it has a text inside that is read in the same way with places counted anew; that text is shorter than
the piece, which is why reading ends.

Letters are variables of one character each, unless two or more of them stand before a parenthesis:
then they must name a square root, a fraction or a function.
-/
set_option autoImplicit false

namespace Mathpad

-- The sum of an empty list is the literal `0`, also where the zero of an algebra is in scope.
attribute [local instance (high)] Zero.ofOfNat0

namespace Reader

/-! ## Cleaning -/

/-- The longest text that is read. -/
def lengthLimit : Nat := 10000

/-- Whether a character may occur in an expression. -/
def isAllowed (c : Char) : Bool := c.isAlphanum || "+-*/^().,".toList.contains c || Text.isBlank c

/-- `cs` with `^` for every `**`. -/
def withCarets : List Char → List Char
  | '*' :: '*' :: cs => '^' :: withCarets cs
  | c :: cs => c :: withCarets cs
  | [] => []

/-- The text as it is read, if it can be an expression at all. -/
def clean (s : String) : Outcome (List Char) :=
  let cs := Text.trimBlanks s.toList
  if cs = [] then .error (.input .empty)
  else if lengthLimit < cs.length then .error (.input (.tooLong lengthLimit))
  else
    match cs.find? (!isAllowed ·) with
    | some c => .error (.input (.invalidCharacter c))
    | none =>
      match Brackets.unmatched? cs with
      | some place => .error (.input (.unbalanced place))
      | none => .ok (withCarets cs)

/-! ## Pieces -/

/-- What can be called: the two notations with rows of their own, and the functions. -/
inductive Callee where
  | sqrt
  | fraction
  | function (f : NamedFunction)
  deriving DecidableEq, Repr

namespace Callee

/-- The callee of a name, if there is one. -/
def ofName? (name : String) : Option Callee :=
  if name = "sqrt" then some .sqrt
  else if name = "frac" then some .fraction
  else (NamedFunction.ofName? name).map .function

/-- The name that a callee is written with. -/
def name : Callee → String
  | sqrt => "sqrt"
  | fraction => "frac"
  | function f => f.name

/-- How many arguments a callee takes. -/
def arity : Callee → Nat
  | sqrt => 1
  | fraction => 2
  | function f => f.arity

/-- The item that a call stands for, given as many rows as the callee takes. -/
def item (args : List Row) : Callee → Item
  | sqrt => .sqrt (args.getD 0 [])
  | fraction => .fraction (args.getD 0 []) (args.getD 1 [])
  | function f => .call f args

end Callee

/-- What stands at the start of a text. -/
inductive Piece where
  /-- Items with nothing left to read. -/
  | finished (row : Row)
  /-- A pair of parentheses and the text between them. -/
  | group (inner : List Char)
  /-- A power: a number of minus signs, and the text of the exponent behind them. -/
  | power (minuses : Nat) (exponent : List Char)
  /-- A call and the text between its parentheses. -/
  | call (callee : Callee) (inner : List Char)
  deriving Repr

/-- How much text inside a piece is still to be read; a call counts one more, for the comma that
could stand behind its last argument. -/
def Piece.pending : Piece → Nat
  | finished _ => 0
  | group inner => inner.length
  | power _ exponent => exponent.length
  | call _ inner => inner.length + 1

/-- The place at which the rest of a text begins, given the length of the whole. -/
def place (total : Nat) (rest : List Char) : Nat := total - rest.length

/-- The text up to the parenthesis that closes the one before `cs`, and what follows. -/
def inside (total : Nat) (cs : List Char) : Outcome (List Char × List Char) :=
  match Brackets.untilClosing 0 cs with
  | some split => .ok split
  | none => .error (.input (.unbalanced (place total cs - 1)))

/-- Whether a character can belong to a number. -/
def isNumeral (c : Char) : Bool := c.isDigit || c == '.'

/-- The exponent at the start of `cs`, behind some minus signs: a group, a run of numerals or one
letter. -/
def exponentPiece (total minuses : Nat) : List Char → Outcome (Piece × List Char)
  | [] => .error (.input (.missingExponent (place total [] - 1)))
  | c :: cs =>
    if c = '(' then do
      let (inner, rest) ← inside total cs
      return (.power minuses inner, rest)
    else if isNumeral c then
      .ok (.power minuses (c :: cs.takeWhile isNumeral), cs.dropWhile isNumeral)
    else if c.isAlpha then .ok (.power minuses [c], cs)
    else .error (.input (.missingExponent (place total (c :: cs) - 1)))

/-- The piece that begins with the letters `name`, where `cs` follows them: a call if a parenthesis
comes next, and otherwise one variable for each letter. -/
def namePiece (total : Nat) (name cs : List Char) : Outcome (Piece × List Char) :=
  match Text.dropBlanks cs with
  | '(' :: after =>
    if name.length = 1 then asVariables
    else do
      let (inner, rest) ← inside total after
      match Callee.ofName? (String.ofList name) with
      | some callee => return (.call callee inner, rest)
      | none => .error (.input (.unknownFunction (String.ofList name)))
  | _ => asVariables
where
  asVariables : Outcome (Piece × List Char) :=
    .ok (.finished (name.map fun c => .var (String.singleton c)), cs)

/-- The piece at the start of the text `c :: cs`, and what follows it. -/
def nextPiece (total : Nat) (c : Char) (cs : List Char) : Outcome (Piece × List Char) :=
  if Text.isBlank c then .ok (.finished [], cs)
  else if c = '(' then do
    let (inner, rest) ← inside total cs
    return (.group inner, rest)
  else if c = '^' then
    let signed := Text.dropBlanks cs
    exponentPiece total (signed.takeWhile (· == '-')).length (signed.dropWhile (· == '-'))
  else if c = ',' then .error (.input (.strayComma (place total (c :: cs))))
  else if c.isAlpha then
    namePiece total (c :: cs.takeWhile Char.isAlpha) (cs.dropWhile Char.isAlpha)
  else
    match Token.ofChar? c with
    | some t => .ok (.finished [.token t], cs)
    | none => .error (.refused (.noToken (String.singleton c)))

/-! ### Pieces are shorter than what they are taken from -/

/-- Dropping characters from the front leaves no more than there were. -/
theorem length_dropWhile_le (p : Char → Bool) (cs : List Char) :
    (cs.dropWhile p).length ≤ cs.length := by
  have := congrArg List.length (List.takeWhile_append_dropWhile (p := p) (l := cs))
  simp only [List.length_append] at this
  omega

/-- What is taken from the front and what is left are all there was. -/
theorem length_takeWhile_add_dropWhile (p : Char → Bool) (cs : List Char) :
    (cs.takeWhile p).length + (cs.dropWhile p).length = cs.length := by
  have := congrArg List.length (List.takeWhile_append_dropWhile (p := p) (l := cs))
  simpa only [List.length_append] using this

/-- A parenthesis that closes stands behind what is inside and before what is left. -/
theorem inside_length {total : Nat} {cs inner rest : List Char}
    (h : inside total cs = .ok (inner, rest)) : inner.length + rest.length + 1 = cs.length := by
  unfold inside at h
  split at h
  · next hs =>
    cases h
    exact Brackets.untilClosing_length hs
  · cases h

/-- What is read behind a caret, and what is left, are no longer than what was there. -/
theorem exponentPiece_pending {total minuses : Nat} {cs rest : List Char} {p : Piece}
    (h : exponentPiece total minuses cs = .ok (p, rest)) : p.pending + rest.length ≤ cs.length := by
  match cs with
  | [] => cases h
  | c :: cs =>
    simp only [exponentPiece] at h
    split at h
    · obtain ⟨⟨inner, r⟩, hi, hk⟩ := Outcome.bind_eq_ok.1 h
      have := inside_length hi
      cases hk
      simp only [Piece.pending, List.length_cons]
      omega
    · split at h
      · cases h
        have := length_takeWhile_add_dropWhile isNumeral cs
        simp only [Piece.pending, List.length_cons]
        omega
      · split at h
        · cases h
          simp only [Piece.pending, List.length_cons, List.length_nil]
          omega
        · cases h

/-- What is read behind a name, and what is left, are no longer than what was there. -/
theorem namePiece_pending {total : Nat} {name cs rest : List Char} {p : Piece}
    (h : namePiece total name cs = .ok (p, rest)) : p.pending + rest.length ≤ cs.length := by
  have letters : namePiece.asVariables name cs = .ok (p, rest) →
      p.pending + rest.length ≤ cs.length := by
    intro hv
    cases hv
    simp [Piece.pending]
  unfold namePiece at h
  split at h
  · next after hd =>
    split at h
    · exact letters h
    · obtain ⟨⟨inner, r⟩, hi, hk⟩ := Outcome.bind_eq_ok.1 h
      have hl := inside_length hi
      have hle := length_dropWhile_le Text.isBlank cs
      rw [Text.dropBlanks] at hd
      simp only [hd, List.length_cons] at hle
      dsimp only at hk
      split at hk
      · cases hk
        simp only [Piece.pending]
        omega
      · cases hk
  · exact letters h

/-- A piece and what is left are no longer than what stood behind its first character. -/
theorem nextPiece_pending {total : Nat} {c : Char} {cs rest : List Char} {p : Piece}
    (h : nextPiece total c cs = .ok (p, rest)) : p.pending + rest.length ≤ cs.length := by
  unfold nextPiece at h
  split at h
  · cases h
    simp [Piece.pending]
  split at h
  · obtain ⟨⟨inner, r⟩, hi, hk⟩ := Outcome.bind_eq_ok.1 h
    have := inside_length hi
    cases hk
    simp only [Piece.pending]
    omega
  split at h
  · have h1 := exponentPiece_pending h
    have h2 := length_dropWhile_le (· == '-') (Text.dropBlanks cs)
    have h3 := length_dropWhile_le Text.isBlank cs
    rw [Text.dropBlanks] at h1 h2
    omega
  split at h
  · cases h
  split at h
  · have h1 := namePiece_pending h
    have h2 := length_dropWhile_le Char.isAlpha cs
    omega
  · split at h
    · cases h
      simp [Piece.pending]
    · cases h

/-! ## Reading -/

/-- How much there is to read in a list of texts, with one more for each, as between commas. -/
def weight (texts : List (List Char)) : Nat := (texts.map fun t => t.length + 1).sum

theorem length_trimBlanks_le (cs : List Char) : (Text.trimBlanks cs).length ≤ cs.length := by
  have h1 := length_dropWhile_le Text.isBlank cs
  have h2 := length_dropWhile_le Text.isBlank (cs.dropWhile Text.isBlank).reverse
  simp only [List.length_reverse] at h2
  simp only [Text.trimBlanks, Text.trim, List.length_reverse]
  omega

/-- Cutting at commas replaces each of them by the cut, so that the weight is kept. -/
theorem weight_cutAtCommas (depth : Nat) (cs : List Char) :
    weight (Brackets.cutAtCommas depth cs) = cs.length + 1 := by
  induction cs generalizing depth with
  | nil => simp [Brackets.cutAtCommas, weight]
  | cons c cs ih =>
    rw [Brackets.cutAtCommas]
    split
    · have := ih 0
      simp only [weight, List.map_cons, List.sum_cons, List.length_nil, List.length_cons] at this ⊢
      omega
    · generalize (if c = '(' then depth + 1 else if c = ')' then depth - 1 else depth) = d
      have := ih d
      split
      · next hn => simp [hn, weight] at this
      · next hp =>
        simp only [hp, weight, List.map_cons, List.sum_cons, List.length_cons] at this ⊢
        omega

/-- Blanks and empty pieces are lost between the arguments, so these weigh less. -/
theorem weight_arguments_le (cs : List Char) : weight (Brackets.arguments cs) ≤ cs.length + 1 := by
  rw [← weight_cutAtCommas 0 cs, Brackets.arguments]
  generalize Brackets.cutAtCommas 0 cs = pieces
  induction pieces with
  | nil => simp [weight]
  | cons t ts ih =>
    have ht := length_trimBlanks_le t
    simp only [weight, List.map_cons, List.filter_cons, List.sum_cons] at ih ⊢
    split
    · simp only [List.map_cons, List.sum_cons]
      omega
    · omega

mutual

/-- The items of a text, the rest of one of length `total`. -/
def readRow (total : Nat) : List Char → Outcome Row
  | [] => .ok []
  | c :: cs =>
    match _h : nextPiece total c cs with
    | .error e => .error e
    | .ok (.finished row, rest) => do
      return row ++ (← readRow total rest)
    | .ok (.group inner, rest) => do
      let row ← readRow inner.length inner
      return .parentheses row :: (← readRow total rest)
    | .ok (.power minuses exponent, rest) => do
      match ← readRow exponent.length exponent with
      | [] => .error (.input (.emptyExponent (place total rest)))
      | row =>
        return .power (List.replicate minuses (.token .subtract) ++ row) :: (← readRow total rest)
    | .ok (.call callee inner, rest) => do
      let texts := Brackets.arguments inner
      if texts.length ≠ callee.arity then
        .error (.input (.argumentCount callee.name callee.arity texts.length))
      else
        let args ← readRows texts
        return callee.item args :: (← readRow total rest)
termination_by cs => cs.length
decreasing_by
  all_goals
    have h := nextPiece_pending _h
    simp only [Piece.pending] at h
    simp only [List.length_cons]
  · omega
  · omega
  · omega
  · omega
  · omega
  · have := weight_arguments_le inner
    omega
  · omega

/-- The items of each text. -/
def readRows : List (List Char) → Outcome (List Row)
  | [] => .ok []
  | t :: ts => do
    let row ← readRow t.length t
    return row :: (← readRows ts)
termination_by ts => weight ts
decreasing_by
  all_goals
    simp only [weight, List.map_cons, List.sum_cons]
    omega

end

end Reader

/-- The row that a text from a user spells. -/
def Row.ofText (s : String) : Outcome Row := do
  let cs ← Reader.clean s
  Reader.readRow cs.length cs

end Mathpad
