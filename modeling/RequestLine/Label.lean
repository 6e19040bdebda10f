/-!
# Labels

Every state of a reading machine carries one of fifteen labels, by which events and errors name it.
The labels are the places of a request line: an address node and its name, the operation, the
property list with its properties and their values, the literals inside them, and the redirection
at the end.
-/

namespace RequestLine

/-- The places of a request line. -/
inductive Label where
  | initial
  | node
  | nodeName
  | operationName
  | propertyList
  | property
  | propertyValue
  | quotes
  | escape
  | brackets
  | braces
  | parens
  | requestEnd
  | outputRedirect
  | outputTarget
  deriving DecidableEq, Repr

namespace Label

/-- The labels in the order in which a line meets their places. -/
def all : List Label :=
  [initial, node, nodeName, operationName, propertyList, property, propertyValue, quotes, escape,
    brackets, braces, parens, requestEnd, outputRedirect, outputTarget]

/-- The stable text by which events and messages name the label. -/
def id : Label → String
  | initial => "INITIAL"
  | node => "NODE"
  | nodeName => "NODE_NAME"
  | operationName => "OP_NAME"
  | propertyList => "PROP_LIST"
  | property => "PROPERTY"
  | propertyValue => "PROP_VALUE"
  | quotes => "QUOTES"
  | escape => "ESCAPE"
  | brackets => "BRACKETS"
  | braces => "BRACES"
  | parens => "PARENS"
  | requestEnd => "REQUEST_END"
  | outputRedirect => "OUT_REDIRECT"
  | outputTarget => "OUT_TARGET"

/-- The label with the given text. -/
def ofId? (s : String) : Option Label :=
  all.find? fun l => l.id = s

theorem ofId?_id (l : Label) : ofId? l.id = some l := by
  cases l <;> decide

/-- The name of the label in running words. -/
def title : Label → String
  | initial => "Initial"
  | node => "Node"
  | nodeName => "NodeName"
  | operationName => "OperationName"
  | propertyList => "PropertyList"
  | property => "Property"
  | propertyValue => "PropertyValue"
  | quotes => "Quotes"
  | escape => "Escape"
  | brackets => "Brackets"
  | braces => "Braces"
  | parens => "Parens"
  | requestEnd => "RequestEnd"
  | outputRedirect => "OutputRedirect"
  | outputTarget => "OutputTarget"

end Label

end RequestLine
