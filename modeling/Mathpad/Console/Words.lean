import Mathpad.Fault

/-
Splitting a line into words.

Words stand apart by blanks. Between single quotes every character stands for itself; between double
quotes too, except that a backslash takes away the meaning of a double quote or of another backslash.
Outside of quotes a backslash takes away the meaning of any character. Quoted and other pieces that
touch each other make one word, and two quotes with nothing between them make an empty one.
-/
set_option autoImplicit false

namespace Mathpad.Console

/-- Whether `c` separates words. -/
def separatesWords (c : Char) : Bool := c == ' ' || c == '\t' || c == '\r' || c == '\n'

/-- What the next character belongs to. -/
inductive Scan where
  /-- No word. -/
  | between
  /-- A word, outside of quotes. -/
  | plain
  /-- A word, between two of the given quotes. -/
  | quoted (mark : Char)
  /-- A word, right behind a backslash; the quote around it, if there is one. -/
  | marked (quote : Option Char)
  deriving DecidableEq, Repr

/-- What follows a character outside of quotes, if it is part of a word: the state behind it and
what it adds to the word. -/
def Scan.enter (c : Char) : Scan × List Char :=
  if c = '\'' ∨ c = '"' then (.quoted c, [])
  else if c = '\\' then (.marked none, [])
  else (.plain, [c])

/-- The words of `cs`, given the state before it and the beginning of the present word, reversed. -/
def scanWords : Scan → List Char → List Char → Outcome (List String)
  | .between, _, [] => .ok []
  | .plain, word, [] => .ok [String.ofList word.reverse]
  | _, _, [] => .error (.mishap .unclosedQuote)
  | .between, _, c :: cs =>
    if separatesWords c then scanWords .between [] cs
    else scanWords (Scan.enter c).1 (Scan.enter c).2 cs
  | .plain, word, c :: cs =>
    if separatesWords c then do return String.ofList word.reverse :: (← scanWords .between [] cs)
    else scanWords (Scan.enter c).1 ((Scan.enter c).2 ++ word) cs
  | .quoted mark, word, c :: cs =>
    if c = mark then scanWords .plain word cs
    else if c = '\\' ∧ mark = '"' then scanWords (.marked (some mark)) word cs
    else scanWords (.quoted mark) (c :: word) cs
  | .marked none, word, c :: cs => scanWords .plain (c :: word) cs
  | .marked (some mark), word, c :: cs =>
    scanWords (.quoted mark) (if c = '\\' ∨ c = mark then c :: word else c :: '\\' :: word) cs

/-- The words of a line. -/
def words (line : String) : Outcome (List String) := scanWords .between [] line.toList

end Mathpad.Console
