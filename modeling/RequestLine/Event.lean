import RequestLine.Label
import RequestLine.Text.Quoted

/-!
# Events

What a run of the machine tells its consumer: a state was entered, a state passed a character on,
a state is about to be left. Offsets count bytes of the line.
-/

namespace RequestLine

inductive Event where
  /-- A state was entered at the character that opened it. -/
  | entered (state : Label) (offset : Nat)
  /-- A state passed a character on. -/
  | character (state : Label) (ch : Char) (offset : Nat)
  /-- A state is about to be left, at its closing character or at the end of the line. -/
  | leaving (state : Label) (offset : Nat) (closing : Option Char)
  deriving DecidableEq, Repr

namespace Event

/-- The label of the state that the event is about. -/
def state : Event → Label
  | entered s _ => s
  | character s _ _ => s
  | leaving s _ _ => s

/-- The byte offset at which the event happened. -/
def offset : Event → Nat
  | entered _ n => n
  | character _ _ n => n
  | leaving _ n _ => n

/-- The character of the event: the one passed on, or the one that closes a state. -/
def ch : Event → Option Char
  | entered _ _ => none
  | character _ c _ => some c
  | leaving _ _ c => c

/-- The event on one line of a dump. -/
def text : Event → String
  | entered s n => "+" ++ s.id ++ "@" ++ toString n
  | character s c n => s.id ++ " " ++ Text.quotedChar c ++ "@" ++ toString n
  | leaving s n (some c) => "-" ++ s.id ++ "@" ++ toString n ++ " " ++ Text.quotedChar c
  | leaving s n none => "-" ++ s.id ++ "@" ++ toString n ++ " eoc"

end Event

end RequestLine
