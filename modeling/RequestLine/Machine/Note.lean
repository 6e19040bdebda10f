import RequestLine.Label
import RequestLine.Text.Quoted

/-!
# Notes

The journal of a run: which states were opened and closed where, and how the line failed. Unlike
the events, the notes are not offered to the sink, and a state is noted as left only when it is
really gone.
-/

namespace RequestLine

inductive Note where
  | entered (state : Label) (offset : Nat)
  | left (state : Label) (offset : Nat)
  /-- The line failed with the message. -/
  | rejected (line message : String)
  deriving DecidableEq, Repr

/-- The note on one line of a log. -/
def Note.text : Note → String
  | entered s n => "TRACE enter " ++ s.id ++ " at " ++ toString n
  | left s n => "TRACE leave " ++ s.id ++ " at " ++ toString n
  | rejected line message => "DEBUG rejected " ++ Text.quotedText line ++ ": " ++ message

end RequestLine
