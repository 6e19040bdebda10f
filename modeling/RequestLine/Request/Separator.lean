/-!
# Separators

The marks that a line may end on while it is being typed. Completion asks for them to know what
kind of word comes next.
-/

namespace RequestLine

inductive Separator where
  /-- `/` between the steps of an address. -/
  | node
  /-- `=` between the type and the name of a node. -/
  | nodeTypeName
  /-- `:` before the operation. -/
  | addressOperationName
  /-- `(` before the properties. -/
  | propertyListStart
  /-- `,` between properties. -/
  | property
  /-- `=` between the name and the value of a property. -/
  | propertyValue
  deriving DecidableEq, Repr

namespace Separator

/-- The separators in the order of a line. -/
def all : List Separator :=
  [node, nodeTypeName, addressOperationName, propertyListStart, property, propertyValue]

/-- The name of the separator. -/
def title : Separator → String
  | node => "Node"
  | nodeTypeName => "NodeTypeName"
  | addressOperationName => "AddressOperationName"
  | propertyListStart => "PropertyListStart"
  | property => "Property"
  | propertyValue => "PropertyValue"

end Separator

end RequestLine
