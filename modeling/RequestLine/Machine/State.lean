import RequestLine.Label
import RequestLine.Machine.Action

/-!
# States

A state is a table: an action for each character it treats specially, one for all others, and one
for each of the four moments at which it is opened, closed, returned to, or met by the end of the
line while it is open.
-/

namespace RequestLine

/-- What a state does with blanks, before it consults its table. -/
inductive BlankRule where
  /-- They are characters like any other. -/
  | keep
  /-- They are skipped. -/
  | ignore
  /-- They are skipped until the state has passed a character on. -/
  | ignoreLeading
  deriving DecidableEq, Repr

structure State (ρ : Type) where
  label : Label
  blanks : BlankRule := .keep
  /-- The characters with an action of their own; of two entries for one character the first
  counts. -/
  entries : List (Char × Action ρ) := []
  /-- The action for all other characters. -/
  otherwise : Action ρ := .forward
  onEnter : Action ρ := .skip
  onLeave : Action ρ := .skip
  onReturn : Action ρ := .skip
  onEnd : Action ρ := .skip
  deriving Repr

namespace State

variable {ρ τ : Type}

/-- The action of the state for the character `c`. -/
def actionFor (s : State ρ) (c : Char) : Action ρ :=
  (s.entries.lookup c).getD s.otherwise

/-- The state with the references of its actions renamed. -/
def map (f : ρ → τ) (s : State ρ) : State τ where
  label := s.label
  blanks := s.blanks
  entries := s.entries.map fun (c, a) => (c, a.map f)
  otherwise := s.otherwise.map f
  onEnter := s.onEnter.map f
  onLeave := s.onLeave.map f
  onReturn := s.onReturn.map f
  onEnd := s.onEnd.map f

end State

end RequestLine
