import Mathpad.Text.Blank

/-
Parentheses and commas in text.

Parentheses are matched by their places: `unmatched?` keeps the places of those still open, and
`untilClosing` counts how many are open. Commas separate arguments only outside any parentheses.
-/
set_option autoImplicit false

namespace Mathpad.Brackets

/-- Goes on from place `i` with the places in `opened` waiting for a partner, the last opened first. -/
def unmatchedFrom : Nat → List Nat → List Char → Option Nat
  | _, opened, [] => opened.getLast?
  | i, opened, c :: cs =>
    if c = '(' then unmatchedFrom (i + 1) (i :: opened) cs
    else if c = ')' then
      match opened with
      | [] => some i
      | _ :: waiting => unmatchedFrom (i + 1) waiting cs
    else unmatchedFrom (i + 1) opened cs

/-- The place of the leftmost parenthesis without a partner. -/
def unmatched? (cs : List Char) : Option Nat := unmatchedFrom 0 [] cs

/-- Splits `cs` at the parenthesis that closes one opened before it: what stands inside, and what
stands behind. The count says how many more have been opened since. -/
def untilClosing : Nat → List Char → Option (List Char × List Char)
  | _, [] => none
  | depth, c :: cs =>
    match depth with
    | 0 =>
      if c = ')' then some ([], cs)
      else keep c (untilClosing (if c = '(' then 1 else 0) cs)
    | d + 1 => keep c (untilClosing (if c = '(' then d + 2 else if c = ')' then d else d + 1) cs)
where
  keep (c : Char) : Option (List Char × List Char) → Option (List Char × List Char)
    | some (inner, rest) => some (c :: inner, rest)
    | none => none

/-- Nothing but the closing parenthesis itself is lost. -/
theorem untilClosing_length {depth : Nat} {cs inner rest : List Char}
    (h : untilClosing depth cs = some (inner, rest)) :
    inner.length + rest.length + 1 = cs.length := by
  induction cs generalizing depth inner rest with
  | nil => simp [untilClosing] at h
  | cons c cs ih =>
    have step : ∀ {d : Nat}, untilClosing.keep c (untilClosing d cs) = some (inner, rest) →
        inner.length + rest.length + 1 = (c :: cs).length := by
      intro d hd
      match hs : untilClosing d cs with
      | none => simp [hs, untilClosing.keep] at hd
      | some (i, r) =>
        simp only [hs, untilClosing.keep, Option.some.injEq, Prod.mk.injEq] at hd
        have := ih hs
        simp only [← hd.1, ← hd.2, List.length_cons]
        omega
    match depth with
    | 0 =>
      rw [untilClosing] at h
      split at h
      · simp only [Option.some.injEq, Prod.mk.injEq] at h
        simp [← h.1, ← h.2]
      · exact step h
    | d + 1 => exact step h

/-- Cuts `cs` at the commas outside any parentheses, of which `depth` are open; a closing one too
many changes nothing. There is one piece more than there are such commas. -/
def cutAtCommas : Nat → List Char → List (List Char)
  | _, [] => [[]]
  | depth, c :: cs =>
    if c = ',' ∧ depth = 0 then [] :: cutAtCommas 0 cs
    else
      match cutAtCommas (if c = '(' then depth + 1 else if c = ')' then depth - 1 else depth) cs with
      | [] => [[c]]
      | piece :: pieces => (c :: piece) :: pieces

/-- The arguments in `cs`: the pieces between commas without the blanks around them. Empty pieces do
not count. -/
def arguments (cs : List Char) : List (List Char) :=
  ((cutAtCommas 0 cs).map Text.trimBlanks).filter (· ≠ [])

end Mathpad.Brackets
