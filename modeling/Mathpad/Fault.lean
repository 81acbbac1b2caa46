import Mathpad.Text.Quoted

/-
Everything that can go wrong, as causes.

A fault says what happened, never in which words; the words are in one place per kind of fault. Four
kinds are part of what the library promises: text that is not an expression, a row of items that
does not form one, arithmetic without a result, and a call that breaks a contract (a cursor path
that leads nowhere, a function with too few arguments). Values that cannot be stored are refused.
What is left are mishaps: situations that no operation guards against and that have no message.
-/
set_option autoImplicit false

namespace Mathpad

/-! ## Arithmetic -/

/-- Why evaluation or reduction has no result. -/
inductive MathsError where
  | divisionByZero
  | invalidSqrt
  | missingVariable
  | overflow
  | imaginary
  deriving DecidableEq, Repr

namespace MathsError

/-- What is said about a fault in arithmetic. -/
def message : MathsError → String
  | divisionByZero => "division by zero"
  | invalidSqrt => "invalid square root"
  | missingVariable => "cannot evaluate variable"
  | overflow => "numeric overflow"
  | imaginary => "imaginary"

/-- The name of a fault in arithmetic. -/
def code : MathsError → String
  | divisionByZero => "DIVISION_BY_ZERO"
  | invalidSqrt => "INVALID_SQRT"
  | missingVariable => "MISSING_VARIABLE"
  | overflow => "OVERFLOW"
  | imaginary => "IMAGINARY"

end MathsError

/-! ## Forming an expression from a row of items -/

/-- Why a row of items is not an expression. -/
inductive UpgradeError where
  | unexpectedTokensAtEnd
  | powerMissingBase
  | expectedUnit
  | cannotUpgradeToken
  | overflow
  deriving DecidableEq, Repr

namespace UpgradeError

/-- What is said about a row that is no expression. -/
def message : UpgradeError → String
  | unexpectedTokensAtEnd => "syntax error"
  | powerMissingBase => "no base given for power"
  | expectedUnit => "syntax error"
  | cannotUpgradeToken => "internal syntax error"
  | overflow => "numeric overflow"

/-- The name of the reason why a row is no expression. -/
def code : UpgradeError → String
  | unexpectedTokensAtEnd => "UNEXPECTED_TOKENS_AT_END"
  | powerMissingBase => "POWER_MISSING_BASE"
  | expectedUnit => "EXPECTED_UNIT"
  | cannotUpgradeToken => "CANNOT_UPGRADE_TOKEN"
  | overflow => "OVERFLOW"

end UpgradeError

/-! ## Text and keys from a user -/

/-- Why a text, a key or a file from a user is not accepted. Positions count characters from the start
of the text, or of the part of it that stands between two parentheses or commas. -/
inductive InputError where
  | empty
  | tooLong (limit : Nat)
  | invalidCharacter (c : Char)
  | unbalanced (position : Nat)
  | argumentCount (name : String) (expected got : Nat)
  | strayComma (position : Nat)
  | missingExponent (position : Nat)
  | emptyExponent (position : Nat)
  | unknownFunction (name : String)
  | cannotType (text : String)
  | unknownKey (key : String)
  | unreadableSession (path : String)
  deriving DecidableEq, Repr

namespace InputError

/-- What is said about a fault in what was typed. -/
def message : InputError → String
  | empty => "Input cannot be empty"
  | tooLong limit => s!"Input too long (>{limit} characters)"
  | invalidCharacter c => "Invalid character " ++ Text.quote (String.singleton c) ++ " in input"
  | unbalanced position => s!"Unbalanced parentheses at position {position}"
  | argumentCount name expected got => s!"{name}() takes {expected} argument(s), got {got}"
  | strayComma position => s!"Unexpected ',' at position {position} outside function arguments"
  | missingExponent position => s!"'^' at position {position} must be followed by an exponent"
  | emptyExponent position => s!"Empty exponent at position {position}"
  | unknownFunction name => "Unknown function " ++ Text.quote name
  | cannotType text => "Cannot type " ++ Text.quote text
  | unknownKey key => s!"Unknown key <{key}>"
  | unreadableSession path => s!"Could not read session from {path}"

/-- The name of a fault in what was typed. -/
def code : InputError → String
  | empty => "EMPTY_INPUT"
  | tooLong _ => "TOO_LONG"
  | invalidCharacter _ => "INVALID_CHARACTER"
  | unbalanced _ => "UNBALANCED_PARENS"
  | argumentCount .. => "BAD_ARGUMENTS"
  | strayComma _ => "BAD_ARGUMENTS"
  | missingExponent _ => "MISSING_EXPONENT"
  | emptyExponent _ => "MISSING_EXPONENT"
  | unknownFunction _ => "UNKNOWN_FUNCTION"
  | cannotType _ => "INVALID_CHARACTER"
  | unknownKey _ => "UNKNOWN_KEY"
  | unreadableSession _ => "INVALID_SESSION_FILE"

end InputError

/-! ## Broken contracts -/

/-- What a caller did that it must not do. -/
inductive Breach where
  | pathEndsOnItem
  | pathEntersToken
  | slotOutOfRange (slot : Int) (container : String)
  | indexOutOfRange (index : Int)
  | offsetBeforeStart (offset : Int)
  | noFractionSlot (slot : Int)
  | cursorNotDrawn
  | cursorTooTall
  | cursorTooWide
  | argumentCount (name : String) (expected got : Nat)
  | notTheParameter (name : String) (parameter : Option String)
  | substitutedTwice
  deriving DecidableEq, Repr

namespace Breach

/-- What is said about a breach. -/
def message : Breach → String
  | pathEndsOnItem => "navigation path must end on an unstructured node list"
  | pathEntersToken => "cannot navigate into a token"
  | slotOutOfRange slot container => s!"index {slot} out of range for {container} navigation"
  | indexOutOfRange index => s!"index {index} out of range for list navigation"
  | offsetBeforeStart offset => s!"cursor offset {offset} moves before the start of a list"
  | noFractionSlot slot => s!"fraction has no slot {slot}"
  | cursorNotDrawn => "cursor was not rendered"
  | cursorTooTall => "cursor does not fit vertically in viewport"
  | cursorTooWide => "cursor does not fit horizontally in viewport"
  | argumentCount name expected got =>
    s!"function {name} expected {expected} arguments, but got {got}"
  | notTheParameter name parameter =>
    s!"cannot substitute {name} in node which was compiled for " ++
      (match parameter with
        | some p => Text.quote p
        | none => "None")
  | substitutedTwice => "cannot substitute into a compiled node more than once"

end Breach

/-! ## Refusals and mishaps -/

/-- A value that an operation declines on purpose. -/
inductive Refusal where
  | negativeCount
  | unsupportedEncoding (kind : String)
  | unsupportedDecoding (kind : String)
  | noToken (text : String)
  deriving DecidableEq, Repr

namespace Refusal

/-- What is said about a refusal. -/
def message : Refusal → String
  | negativeCount => "cannot serialize negative numbers"
  | unsupportedEncoding kind => s!"cannot serialize {kind}"
  | unsupportedDecoding kind => s!"cannot deserialize {kind}"
  | noToken text => "no token for character " ++ Text.quote text

end Refusal

/-- A situation that nothing guards against. -/
inductive Mishap where
  /-- An angle unit that is neither of the two. -/
  | unknownAngleUnit
  /-- A quotation that is not closed, or a backslash with nothing behind it. -/
  | unclosedQuote
  /-- The character that ends names inside a file name. -/
  | nulInFileName
  /-- A byte above 255 or below 0: more arguments or a larger digit than the format holds. -/
  | byteOutOfRange
  /-- A sign where only digits are drawn. -/
  | signAmongDigits
  /-- The least of no values. -/
  | leastOfNothing
  /-- A number of digits that no precision can have. -/
  | impossiblePrecision
  /-- A value that is not a number where a whole one is needed. -/
  | notANumber
  /-- An infinite value where a whole one is needed. -/
  | infinite
  /-- A remainder by a denominator of zero. -/
  | zeroDenominator
  /-- A character outside Latin-1 where one byte is all there is. -/
  | notLatin1
  /-- A decimal that keeps too many digits, or text that is no decimal. -/
  | invalidDecimal
  /-- A number too large for its binary field. -/
  | fieldOverflow
  /-- A place before the start or behind the end of a list. -/
  | indexOutOfRange
  /-- Steps that come to no end. -/
  | endless
  deriving DecidableEq, Repr

/-- Any failure of the library. -/
inductive Fault where
  | input (e : InputError)
  | upgrade (e : UpgradeError)
  | maths (e : MathsError)
  | breach (e : Breach)
  | refused (e : Refusal)
  | mishap (e : Mishap)
  deriving DecidableEq, Repr

/-- A failure that is the user's to mend, with its wording and its code. -/
structure Complaint where
  message : String
  code : String
  deriving DecidableEq, Repr

/-- What is reported to a user; `none` for a failure that is not the user's. -/
def Fault.complaint? : Fault → Option Complaint
  | .input e => some ⟨e.message, e.code⟩
  | .upgrade e => some ⟨e.message, e.code⟩
  | .maths e => some ⟨e.message, e.code⟩
  | _ => none

/-- A computation that may fail. -/
abbrev Outcome := Except Fault

/-- A sequence of two computations succeeds when both do. -/
theorem Outcome.bind_eq_ok {α β : Type} {x : Outcome α} {k : α → Outcome β} {b : β} :
    x >>= k = .ok b ↔ ∃ a, x = .ok a ∧ k a = .ok b := by
  cases x <;> simp [bind, Except.bind]

/-- Failure with an arithmetic cause. -/
def failMaths {α : Type} (e : MathsError) : Outcome α := .error (.maths e)

end Mathpad
