/-!
# Actions

What a state does with a character, or when it is entered, left, returned to or met by the end of
the line. Actions name other states by references of a type `ρ`, so a table of states may refer to
itself.
-/

namespace RequestLine

/-- The errors that a table can raise. -/
inductive Fault where
  | unexpectedCharacter
  | unterminatedQuote
  | unmatchedBracket
  | missingCloseParen
  | emptyOperationName
  | emptyRedirectTarget
  | danglingEscape
  deriving DecidableEq, Repr

inductive Action (ρ : Type) where
  /-- Drop the character. -/
  | skip
  /-- Pass the character on to the sink. -/
  | forward
  /-- Open a state; the character is its opener. -/
  | enter (state : ρ)
  /-- Close the current state; the character is its closer. -/
  | leave
  /-- Close the current state and open it again. -/
  | reenter
  /-- Close the current state and offer the character to the one below it. -/
  | handBack
  /-- Look the character up in the current state's table. -/
  | reprocess
  /-- Look the character up if the state just closed has handed it back. -/
  | resume
  /-- Pass on a nested opener of a literal and count it. -/
  | openNested
  /-- Pass on a closer of a literal, and close the literal if the closer is not a nested one. -/
  | closeNested
  /-- Open a state if the backslash is an escape, else pass the character on. -/
  | escape (state : ρ)
  /-- Pass the character on if it is the state's first, else fail. -/
  | forwardOnce
  /-- Fail if the state has passed on no character. -/
  | requireContent (fault : Fault)
  | fail (fault : Fault)
  /-- Several actions in order, up to the first that fails. -/
  | sequence (actions : List (Action ρ))
  deriving Repr

namespace Action

variable {ρ τ : Type}

mutual

/-- The action with its references renamed. -/
def map (f : ρ → τ) : Action ρ → Action τ
  | skip => skip
  | forward => forward
  | enter s => enter (f s)
  | leave => leave
  | reenter => reenter
  | handBack => handBack
  | reprocess => reprocess
  | resume => resume
  | openNested => openNested
  | closeNested => closeNested
  | escape s => escape (f s)
  | forwardOnce => forwardOnce
  | requireContent e => requireContent e
  | fail e => fail e
  | sequence as => sequence (mapAll f as)

def mapAll (f : ρ → τ) : List (Action ρ) → List (Action τ)
  | [] => []
  | a :: as => map f a :: mapAll f as

end

end Action

end RequestLine
