import RequestLine.Label
import RequestLine.Text.Quoted

/-!
# Reading errors

An error has a cause, the place to point at, the state in which it arose and the character under
the cursor at that moment. The place is not always the cursor: a construct that was left open is
reported where it was opened.
-/

namespace RequestLine

/-- What went wrong. -/
inductive Cause where
  | unterminatedQuote
  | unmatchedBracket (opener : Char)
  | unexpectedCharacter
  | emptyOperationName
  | missingCloseParen
  | emptyRedirectTarget
  | danglingEscape
  /-- The consumer refused an event. -/
  | rejected (reason : String)
  deriving DecidableEq, Repr

/-- The wording of a cause. -/
def Cause.message : Cause → String
  | unterminatedQuote => "unterminated quoted literal"
  | unmatchedBracket opener => "unmatched '" ++ opener.toString ++ "'"
  | unexpectedCharacter => "unexpected character"
  | emptyOperationName => "operation name is missing"
  | missingCloseParen => "property list is missing its closing ')'"
  | emptyRedirectTarget => "output redirection is missing its target"
  | danglingEscape => "nothing to escape after '\\'"
  | rejected reason => "rejected: " ++ reason

structure ParseError where
  cause : Cause
  /-- The byte offset to point at. -/
  offset : Nat
  /-- The state that was active when the error arose. -/
  state : Label
  /-- The character under the cursor; none at the end of the line. -/
  found : Option Char
  deriving DecidableEq, Repr

namespace ParseError

/-- The character under the cursor, in words. -/
def foundText (e : ParseError) : String :=
  match e.found with
  | some c => Text.quotedChar c
  | none => "end of input"

/-- The error on one line. -/
def message (e : ParseError) : String :=
  e.cause.message ++ " at offset " ++ toString e.offset ++ " (in " ++ e.state.id ++ ", found "
    ++ e.foundText ++ ")"

/-- The last words of a program that the error ends. -/
def fatalMessage (e : ParseError) : String :=
  "Parse error at offset " ++ toString e.offset ++ ": " ++ e.message

end ParseError

end RequestLine
