import RequestLine.Machine.Run
import RequestLine.Request.Grammar

/-!
# Tables beside the request grammar

A table of states of one's own, for another language of lines. Its states are referred to by their
number, and they may also refer to the states of the request grammar by their label. Two references
mean the same state only if they are equal, whatever the states hold.
-/

namespace RequestLine

/-- A reference to one of `n` states, or to a state of the request grammar. -/
abbrev Ref (n : Nat) := Fin n ⊕ Label

/-- A table of `n` states. -/
abbrev Table (n : Nat) := Fin n → State (Ref n)

namespace Table

variable {n : Nat}

/-- The state that a reference means. -/
def state (t : Table n) : Ref n → State (Ref n)
  | .inl i => t i
  | .inr l => (Request.state l).map .inr

/-- How deep the actions of a table may nest before it counts as one that never settles. -/
def bound : Nat := 100000

/-- Reads a line with the table, from the state `initial`. -/
def run {σ : Type} (t : Table n) (initial : Ref n) (options : Options) (sink : Sink σ)
    (line : String) (consumer : σ) : Report σ :=
  Machine.run { state := t.state, initial, options, sink } bound line consumer

end Table

end RequestLine
