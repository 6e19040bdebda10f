import RequestLine.Machine.Note

/-!
# Configurations

The moving part of a machine: the stack of open states, the cursor on the line, and what the
consumer has made of the events so far.
-/

namespace RequestLine

/-- An open state. -/
structure Frame (ρ : Type) where
  state : ρ
  /-- The byte offset at which the state was opened. -/
  openedAt : Nat
  /-- The character that opened it; none if the end of the line did. -/
  openedWith : Option Char
  /-- The nested openers that are still open. -/
  depth : Nat := 0
  /-- The number of characters that the state has passed on. -/
  forwarded : Nat := 0
  deriving DecidableEq, Repr

structure Config (ρ σ : Type) where
  /-- The open states, innermost first. -/
  stack : List (Frame ρ) := []
  /-- The character under the cursor; none at the end of the line. -/
  cursor : Option Char := none
  offset : Nat := 0
  /-- The state being closed leaves the character to the one below it. -/
  handedBack : Bool := false
  notes : Array Note := #[]
  consumer : σ

namespace Config

variable {ρ σ : Type}

/-- The number of characters that the innermost state has passed on; none are counted outside of
all states. -/
def forwarded (c : Config ρ σ) : Nat :=
  match c.stack with
  | [] => 0
  | top :: _ => top.forwarded

/-- The configuration with its innermost frame changed. -/
def mapTop (f : Frame ρ → Frame ρ) (c : Config ρ σ) : Config ρ σ :=
  match c.stack with
  | [] => c
  | top :: rest => { c with stack := f top :: rest }

/-- The configuration with `s` opened at the cursor. -/
def push (s : ρ) (c : Config ρ σ) : Config ρ σ :=
  { c with stack := { state := s, openedAt := c.offset, openedWith := c.cursor } :: c.stack }

/-- The configuration without its innermost frame. -/
def pop (c : Config ρ σ) : Config ρ σ :=
  { c with stack := c.stack.tail }

def note (n : Note) (c : Config ρ σ) : Config ρ σ :=
  { c with notes := c.notes.push n }

end Config

end RequestLine
