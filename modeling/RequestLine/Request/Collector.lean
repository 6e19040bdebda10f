import RequestLine.Event
import RequestLine.Options
import RequestLine.Request.Basic
import RequestLine.Request.Field
import RequestLine.Request.Separator
import RequestLine.Sink

/-!
# Collecting a request from events

The collector follows the events of a run and builds the request piece by piece. It keeps its own
list of open states, so that a character can be given to the field it belongs to: that of the
innermost open state that has one. A character that got there through a literal is kept, all others
may be trimmed.

It takes any events in any order. What it has gathered is there to be asked for at every moment,
so it answers the questions of completion also for a line that does not parse yet.
-/

namespace RequestLine

/-- A property of which not all has been read. -/
structure PendingProperty where
  name : Field := {}
  value : Option Field := none
  valueSeparator : Option Nat := none
  deriving DecidableEq, Repr

structure Collector where
  options : Options := {}
  /-- The open states, innermost first. -/
  stack : List Label := []
  request : Request := {}
  nodeType : Field := {}
  nodeName : Option Field := none
  operation : Field := {}
  property : PendingProperty := {}
  mode : RedirectMode := .overwrite
  target : Field := {}
  /-- The property list has met its closing parenthesis. -/
  listClosed : Bool := false
  /-- The separator that only blanks have followed. -/
  separator : Option Separator := none
  deriving DecidableEq, Repr

/-- The state that owns the text read in the innermost of the states `stack`, and whether that text
comes through a literal. -/
def textOwner : List Label → Option (Label × Bool)
  | [] => none
  | .quotes :: rest | .escape :: rest | .brackets :: rest | .braces :: rest | .parens :: rest =>
    (textOwner rest).map fun (l, _) => (l, true)
  | .initial :: _ | .propertyList :: _ | .requestEnd :: _ => none
  | l :: _ => some (l, false)

namespace Collector

/-- The text of a field, trimmed as the options say. -/
def textOf (c : Collector) (f : Field) : String :=
  f.finish c.options.isBlank

/-- Takes note that a state was opened at `offset`. -/
def enter (c : Collector) (l : Label) (offset : Nat) : Collector :=
  let c := { c with stack := l :: c.stack }
  match l with
  | .node => { c with separator := some .node }
  | .nodeName => { c with nodeName := some {}, separator := some .nodeTypeName }
  | .operationName => { c with separator := some .addressOperationName }
  | .propertyList =>
    { c with
      request := { c.request with properties := some [] }
      listClosed := false
      separator := some .propertyListStart }
  | .property => c
  | .propertyValue =>
    { c with
      property := { c.property with value := some {}, valueSeparator := some offset }
      separator := some .propertyValue }
  | .outputRedirect => { c with mode := .overwrite, separator := none }
  | _ => { c with separator := none }

/-- Gives a character to the field of the state `owner`. -/
def give (c : Collector) (owner : Label) (ch : Char) (keep : Bool) : Collector :=
  match owner with
  | .node => { c with nodeType := c.nodeType.push ch keep }
  | .nodeName => { c with nodeName := c.nodeName.map (·.push ch keep) }
  | .operationName => { c with operation := c.operation.push ch keep }
  | .property => { c with property := { c.property with name := c.property.name.push ch keep } }
  | .propertyValue =>
    { c with property := { c.property with value := c.property.value.map (·.push ch keep) } }
  | .outputRedirect => { c with mode := .append }
  | .outputTarget => { c with target := c.target.push ch keep }
  | _ => c

/-- Takes note of a character. If it is not blank, the line no longer ends on a separator. -/
def seen (c : Collector) (ch : Char) : Collector :=
  if c.options.isBlank ch then c else { c with separator := none }

/-- Takes a character that the state `l` passed on. Outside of all states that is the root of an
absolute address. -/
def take (c : Collector) (l : Label) (ch : Char) : Collector :=
  let c := c.seen ch
  if l = .initial then { c with request := { c.request with absolute := true } }
  else
    match textOwner c.stack with
    | none => c
    | some (owner, keep) => c.give owner ch keep

/-- The step that a segment with the given parts stands for; none if nothing was written. A
navigation word counts as one only if it is written bare. -/
def stepOf (literal : Bool) (nodeType : String) (name : Option String) : Option Step :=
  match name with
  | some _ => some (.node { nodeType, name })
  | none =>
    if nodeType = "" then none
    else if literal then some (.node { nodeType })
    else some ((Step.ofWord? nodeType).getD (.node { nodeType }))

/-- The property with the given parts; none if nothing was written. -/
def writtenProperty (name : String) (value : Option String) (valueSeparator : Option Nat) :
    Option Property :=
  if name = "" && value.isNone then none else some { name, value, valueSeparator }

/-- The pending property; none if nothing was written. -/
def pendingProperty (c : Collector) : Option Property :=
  writtenProperty (c.textOf c.property.name) (c.property.value.map c.textOf)
    c.property.valueSeparator

section Draining

/-! The steps below take the way to take a text out of its field as an argument: `step` takes out
any text, and `step?` stops where there is none. -/

variable {M : Type → Type} [Monad M] (drain : Field → M (String × Field))

/-- The text of a field that need not be there. -/
def drainAnyM : Option Field → M (Option String)
  | none => return none
  | some f => return some (← drain f).1

/-- Adds the pending segment to the address. -/
def finishSegmentM (c : Collector) : M Collector := do
  let (type, nodeType) ← drain c.nodeType
  let name ← drainAnyM drain c.nodeName
  let step := stepOf c.nodeType.kept.isSome type name
  return { c with
    nodeType
    nodeName := none
    request := { c.request with address := c.request.address ++ step.toList } }

/-- Adds the pending property to the list, if one is open. -/
def finishPropertyM (c : Collector) : M Collector := do
  let (name, _) ← drain c.property.name
  let value ← drainAnyM drain c.property.value
  let done := writtenProperty name value c.property.valueSeparator
  return { c with
    property := {}
    request := { c.request with properties := c.request.properties.map (· ++ done.toList) } }

/-- Takes note that the state `l` is about to be closed. -/
def leaveM (c : Collector) (l : Label) (closing : Option Char) : M Collector :=
  let c := { c with stack := c.stack.tail }
  match l with
  | .node => do
    let c ← c.finishSegmentM drain
    return if closing = some '/' then { c with separator := some .node } else c
  | .operationName =>
    if c.operation.isEmpty then return c
    else do
      let (text, operation) ← drain c.operation
      return { c with operation, request := { c.request with operation := some text } }
  | .property => do
    let c ← c.finishPropertyM drain
    return if closing = some ',' then { c with separator := some .property } else c
  | .propertyList => return { c with listClosed := closing = some ')', separator := none }
  | .outputRedirect => do
    let (text, target) ← drain c.target
    return { c with
      target
      request := { c.request with redirect := some { mode := c.mode, target := text } } }
  | _ => return c

/-- Takes an event. -/
def stepM (c : Collector) : Event → M Collector
  | .entered l offset => return c.enter l offset
  | .character l ch _ => return c.take l ch
  | .leaving l _ closing => c.leaveM drain l closing

end Draining

/-- Takes the text out of a field, trimmed as the options say. -/
def drain (c : Collector) (f : Field) : Id (String × Field) :=
  pure (f.drain c.options.isBlank)

def finishSegment (c : Collector) : Collector :=
  Id.run (c.finishSegmentM c.drain)

def finishProperty (c : Collector) : Collector :=
  Id.run (c.finishPropertyM c.drain)

def leave (c : Collector) (l : Label) (closing : Option Char) : Collector :=
  Id.run (c.leaveM c.drain l closing)

/-- Takes an event, and the texts that it finishes. -/
def step (c : Collector) (e : Event) : Collector :=
  Id.run (c.stepM c.drain e)

/-- Takes an event; nothing if the range of a field that it finishes does not begin and end between
characters of its text. -/
def step? (c : Collector) (e : Event) : Option Collector :=
  c.stepM (·.drain? c.options.isBlank) e

section Steps

variable (c : Collector) (x : Option Char)

theorem take_eq (l : Label) (ch : Char) : c.take l ch =
    if l = .initial then
      { c.seen ch with request := { (c.seen ch).request with absolute := true } }
    else
      match textOwner (c.seen ch).stack with
      | none => c.seen ch
      | some (owner, keep) => (c.seen ch).give owner ch keep := rfl

theorem drainAnyM_drain (f : Option Field) : drainAnyM c.drain f = pure (f.map c.textOf) := by
  cases f <;> rfl

theorem finishSegment_eq : c.finishSegment =
    { c with
      nodeType := {}
      nodeName := none
      request :=
        { c.request with
          address := c.request.address
            ++ (stepOf c.nodeType.kept.isSome (c.textOf c.nodeType)
              (c.nodeName.map c.textOf)).toList } } := by
  rw [finishSegment, finishSegmentM, drainAnyM_drain]
  rfl

theorem finishProperty_eq : c.finishProperty =
    { c with
      property := {}
      request :=
        { c.request with
          properties := c.request.properties.map (· ++ c.pendingProperty.toList) } } := by
  rw [finishProperty, finishPropertyM, drainAnyM_drain]
  rfl

theorem leave_node : c.leave .node x =
    if x = some '/' then
      { finishSegment { c with stack := c.stack.tail } with separator := some .node }
    else finishSegment { c with stack := c.stack.tail } := rfl

theorem leave_operationName : c.leave .operationName x =
    if c.operation.isEmpty then { c with stack := c.stack.tail }
    else
      { c with
        stack := c.stack.tail
        operation := {}
        request := { c.request with operation := some (c.textOf c.operation) } } := by
  rfl

theorem leave_property : c.leave .property x =
    if x = some ',' then
      { finishProperty { c with stack := c.stack.tail } with separator := some .property }
    else finishProperty { c with stack := c.stack.tail } := rfl

end Steps

/-- The collector as a consumer of events. It refuses none. -/
def sink : Sink Collector :=
  Sink.ofStep step

/-- The line ends on the separator `s`. -/
def endsOn (c : Collector) (s : Separator) : Bool :=
  c.separator = some s

/-- The request names an operation, and its property list, if it has one, is closed. -/
def isComplete (c : Collector) : Bool :=
  c.request.operation.any (· ≠ "") && (c.request.properties.isNone || c.listClosed)

end Collector

end RequestLine
