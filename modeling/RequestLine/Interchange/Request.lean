import RequestLine.Interchange.Value
import RequestLine.Request.Basic

/-!
# Requests as values
-/

namespace RequestLine

namespace Segment

def toValue (s : Segment) : Value :=
  .record [("node_type", .text s.nodeType), ("name", .ofOption .text s.name)]

def ofValue? (v : Value) : Option Segment :=
  match v.parts? ["node_type", "name"] with
  | some [nodeType, name] =>
    return { nodeType := ← Value.required Value.text? nodeType
             name := ← Value.optional Value.text? name }
  | _ => none

end Segment

namespace Step

/-- A step to a node is a record with the one part `Node`, any other step is a word. -/
def toValue : Step → Value
  | node s => .record [("Node", s.toValue)]
  | parent => .text "Parent"
  | current => .text "Current"
  | nodeType => .text "NodeType"

def ofValue? : Value → Option Step
  | .record [("Node", v)] => (Segment.ofValue? v).map node
  | v =>
    match v.word? with
    | some "Parent" => some parent
    | some "Current" => some current
    | some "NodeType" => some nodeType
    | _ => none

end Step

namespace Property

def toValue (p : Property) : Value :=
  .record [("name", .text p.name), ("value", .ofOption .text p.value),
    ("value_separator", .ofOption .ofNat p.valueSeparator)]

def ofValue? (v : Value) : Option Property :=
  match v.parts? ["name", "value", "value_separator"] with
  | some [name, value, separator] =>
    return { name := ← Value.required Value.text? name
             value := ← Value.optional Value.text? value
             valueSeparator := ← Value.optional Value.offset? separator }
  | _ => none

end Property

namespace RedirectMode

def toValue : RedirectMode → Value
  | overwrite => .text "Overwrite"
  | append => .text "Append"

def ofValue? (v : Value) : Option RedirectMode :=
  match v.word? with
  | some "Overwrite" => some overwrite
  | some "Append" => some append
  | _ => none

end RedirectMode

namespace Redirect

def toValue (r : Redirect) : Value :=
  .record [("mode", r.mode.toValue), ("target", .text r.target)]

def ofValue? (v : Value) : Option Redirect :=
  match v.parts? ["mode", "target"] with
  | some [mode, target] =>
    return { mode := ← Value.required RedirectMode.ofValue? mode
             target := ← Value.required Value.text? target }
  | _ => none

end Redirect

namespace Request

def toValue (r : Request) : Value :=
  .record [("absolute", .bool r.absolute), ("address", .ofList Step.toValue r.address),
    ("operation", .ofOption .text r.operation),
    ("properties", .ofOption (.ofList Property.toValue) r.properties),
    ("redirect", .ofOption Redirect.toValue r.redirect)]

def ofValue? (v : Value) : Option Request :=
  match v.parts? ["absolute", "address", "operation", "properties", "redirect"] with
  | some [absolute, address, operation, properties, redirect] =>
    return { absolute := ← Value.required Value.bool? absolute
             address := ← Value.required (Value.list? Step.ofValue?) address
             operation := ← Value.optional Value.text? operation
             properties := ← Value.optional (Value.list? Property.ofValue?) properties
             redirect := ← Value.optional Redirect.ofValue? redirect }
  | _ => none

end Request

end RequestLine
