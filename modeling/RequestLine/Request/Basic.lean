/-!
# Requests

A request addresses a node, names an operation with its properties, and may redirect the answer.
-/

namespace RequestLine

/-- A node of an address: its type, and its name if it has one. -/
structure Segment where
  nodeType : String
  name : Option String := none
  deriving DecidableEq, Repr

/-- A step of an address. -/
inductive Step where
  | node (segment : Segment)
  /-- To the parent. -/
  | parent
  /-- Nowhere. -/
  | current
  /-- To the type of the node, whose name the next step may give. -/
  | nodeType
  deriving DecidableEq, Repr

namespace Step

/-- The segment of a step to a node. -/
def segment? : Step → Option Segment
  | node s => some s
  | _ => none

/-- The step that a word written bare stands for, if it is one of the navigation words. -/
def ofWord? (word : String) : Option Step :=
  if word = ".." then some parent
  else if word = "." then some current
  else if word = ".type" then some nodeType
  else none

end Step

structure Property where
  name : String
  /-- None for a bare name; the empty text if nothing follows the `=`. -/
  value : Option String := none
  /-- The byte offset of the `=` in the line that the property was read from. -/
  valueSeparator : Option Nat := none
  deriving DecidableEq, Repr

/-- What becomes of the text that the target holds already. -/
inductive RedirectMode where
  | overwrite
  | append
  deriving DecidableEq, Repr

structure Redirect where
  mode : RedirectMode
  target : String
  deriving DecidableEq, Repr

structure Request where
  /-- The address starts at the root and not at the current node. -/
  absolute : Bool := false
  address : List Step := []
  operation : Option String := none
  /-- None if the line has no list. -/
  properties : Option (List Property) := none
  redirect : Option Redirect := none
  deriving DecidableEq, Repr

/-- The first property with the given name. -/
def Request.property? (r : Request) (name : String) : Option Property :=
  r.properties.bind fun ps => ps.find? (·.name = name)

end RequestLine
