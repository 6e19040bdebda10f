import RequestLine.Machine.Config
import RequestLine.Machine.State
import RequestLine.Options
import RequestLine.ParseError
import RequestLine.Sink
import RequestLine.Text.Bytes

/-!
# Running a machine

A machine reads a line from left to right and looks every character up in the table of its
innermost open state; it never looks ahead and never goes back. At the end of the line it closes
the states that are still open, innermost first.

Actions call for other actions: closing a state runs its closing action and then the return action
of the state below, which may look the character up again. `perform` says what one action does in
terms of a way to run the actions it calls for, and `handle` closes the knot for actions that nest
up to a given bound. Tables can be written that never settle, and those end as `Stop.exhausted`.

A run keeps its configuration when it fails, so what the consumer got before an error stays with
it.
-/

namespace RequestLine

/-- Why a run ends early. -/
inductive Stop where
  | failed (error : ParseError)
  /-- The line failed under options that make an error fatal. -/
  | fatal (error : ParseError)
  /-- The actions nest deeper than the bound of the run. -/
  | exhausted
  deriving DecidableEq, Repr

/-- A table of states with the one that lies below all others, and what it is run with. -/
structure Machine (ρ σ : Type) where
  state : ρ → State ρ
  initial : ρ
  options : Options := {}
  sink : Sink σ

/-- A step of a run. -/
abbrev Run (ρ σ : Type) := EStateM Stop (Config ρ σ)

namespace Machine

variable {ρ σ : Type} (m : Machine ρ σ)

/-- The innermost open state, or the initial state if none is open. -/
def current (c : Config ρ σ) : ρ :=
  match c.stack with
  | [] => m.initial
  | top :: _ => top.state

/-- The label of the current state. -/
def label (c : Config ρ σ) : Label :=
  (m.state (m.current c)).label

/-- The error with the given cause at `offset`. -/
def errorAt (c : Config ρ σ) (cause : Cause) (offset : Nat) : ParseError :=
  { cause, offset, state := m.label c, found := c.cursor }

/-- Offers an event to the sink. A refusal is an error at the cursor. -/
def report (e : Event) : Run ρ σ Unit := fun c =>
  match m.sink e c.consumer with
  | .ok () s => .ok () { c with consumer := s }
  | .error reason s =>
    .error (.failed (m.errorAt c (.rejected reason) c.offset)) { c with consumer := s }

/-- Passes the character under the cursor on to the sink. -/
def forward : Run ρ σ Unit := do
  let c ← get
  match c.cursor with
  | none => pure ()
  | some ch =>
    set (c.mapTop fun top => { top with forwarded := top.forwarded + 1 })
    m.report (.character (m.label c) ch c.offset)

/-- The cause and the place of a fault; none if the options let it pass. A construct that is open
or empty is reported where it was opened, anything else at the cursor. -/
def diagnose (c : Config ρ σ) (f : Fault) : Option (Cause × Nat) :=
  let openedAt := (c.stack.head?.map Frame.openedAt).getD c.offset
  match f with
  | .unexpectedCharacter => some (.unexpectedCharacter, c.offset)
  | .emptyRedirectTarget => some (.emptyRedirectTarget, c.offset)
  | .unterminatedQuote => some (.unterminatedQuote, openedAt)
  | .missingCloseParen => some (.missingCloseParen, openedAt)
  | .emptyOperationName => some (.emptyOperationName, openedAt)
  | .danglingEscape => some (.danglingEscape, openedAt)
  | .unmatchedBracket =>
    if m.options.lenientBrackets then none
    else
      let opener := (c.stack.head?.bind Frame.openedWith).getD '\x00'
      some (.unmatchedBracket opener, openedAt)

/-- Raises a fault. -/
def fail (f : Fault) : Run ρ σ Unit := fun c =>
  match m.diagnose c f with
  | none => .ok () c
  | some (cause, offset) => .error (.failed (m.errorAt c cause offset)) c

/-- Blanks are skipped by the current state. -/
def skipsBlanks (c : Config ρ σ) : Bool :=
  match (m.state (m.current c)).blanks with
  | .keep => false
  | .ignore => true
  | .ignoreLeading => c.forwarded = 0

section Steps

/-! The steps below take the way to run further actions as an argument. -/

variable (self : Action ρ → Run ρ σ Unit)

/-- Looks the character under the cursor up in the current state. -/
def dispatch : Run ρ σ Unit := do
  let c ← get
  match c.cursor with
  | none => pure ()
  | some ch =>
    if m.options.isBlank ch && m.skipsBlanks c then pure ()
    else self ((m.state (m.current c)).actionFor ch)

/-- Opens a state. -/
def enter (s : ρ) : Run ρ σ Unit := do
  let c ← get
  m.report (.entered (m.state s).label c.offset)
  modify fun c => (c.note (.entered (m.state s).label c.offset)).push s
  self (m.state s).onEnter

/-- Runs the return action of the current state, if one is open. -/
def returned : Run ρ σ Unit := do
  let c ← get
  match c.stack with
  | [] => pure ()
  | top :: _ => self (m.state top.state).onReturn

/-- Closes the current state. Outside of all states the character closes what was never opened. -/
def leave : Run ρ σ Unit := do
  let c ← get
  match c.stack with
  | [] => m.fail .unexpectedCharacter
  | top :: _ =>
    m.report (.leaving (m.state top.state).label c.offset c.cursor)
    self (m.state top.state).onLeave
    modify fun c => c.pop.note (.left (m.state top.state).label c.offset)
    m.returned self

/-- What an action does, where `self` runs the actions that it calls for. -/
def perform : Action ρ → Run ρ σ Unit
  | .skip => pure ()
  | .forward => m.forward
  | .enter s => m.enter self s
  | .leave => m.leave self
  | .reenter => do
    let s := m.current (← get)
    m.leave self
    m.enter self s
  | .handBack => do
    modify fun c => { c with handedBack := true }
    m.leave self
    modify fun c => { c with handedBack := false }
  | .reprocess => m.dispatch self
  | .resume => do
    let c ← get
    if c.handedBack then
      set { c with handedBack := false }
      m.dispatch self
  | .openNested => do
    modify (·.mapTop fun top => { top with depth := top.depth + 1 })
    m.forward
  | .closeNested => do
    let c ← get
    if c.stack.head?.any (0 < ·.depth) then
      set (c.mapTop fun top => { top with depth := top.depth - 1 })
      m.forward
    else
      m.forward
      m.leave self
  | .escape s =>
    match m.options.escapeRule with
    | .backslash => m.enter self s
    | .verbatim => m.forward
  | .forwardOnce => do
    let c ← get
    if c.forwarded = 0 then m.forward else m.fail .unexpectedCharacter
  | .requireContent f => do
    let c ← get
    if c.forwarded = 0 then m.fail f
  | .fail f => m.fail f
  | .sequence as => as.forM self

end Steps

/-- Runs an action whose nested actions stay within the bound. -/
def handle : Nat → Action ρ → Run ρ σ Unit
  | 0, _ => throw .exhausted
  | bound + 1, a => m.perform (handle bound) a

/-- Moves the cursor to the character `ch` at `offset` and runs it through the current state. -/
def advance (bound offset : Nat) (ch : Char) : Run ρ σ Unit := do
  modify fun c => { c with offset, cursor := some ch }
  m.dispatch (m.handle bound)

/-- Reads the characters `cs`, the first of which stands at `offset`. -/
def feed (bound : Nat) : Nat → List Char → Run ρ σ Unit
  | _, [] => pure ()
  | offset, ch :: cs => do
    m.advance bound offset ch
    feed bound (offset + ch.utf8Size) cs

/-- Closes the open states in at most `rounds` rounds. A round runs the innermost state's action
for the end of the line, and closes the state unless that has closed something already. -/
def closeAll (bound : Nat) : Nat → Run ρ σ Unit
  | 0 => do
    let c ← get
    match c.stack with
    | [] => pure ()
    | _ :: _ => throw .exhausted
  | rounds + 1 => do
    let c ← get
    match c.stack with
    | [] => pure ()
    | top :: rest =>
      m.handle bound (m.state top.state).onEnd
      if rest.length < (← get).stack.length then m.leave (m.handle bound)
      closeAll bound rounds

/-- Moves the cursor to the end of the line, at `offset`, and closes the open states. -/
def finish (bound offset : Nat) : Run ρ σ Unit := do
  modify fun c => { c with offset, cursor := none, handedBack := false }
  m.closeAll bound bound

/-- Reads the characters `cs`, which start at `offset`, to the end of the line. -/
def read (bound offset : Nat) (cs : List Char) : Run ρ σ Unit := do
  m.feed bound offset cs
  m.finish bound (offset + Text.byteSize cs)

end Machine

/-- What a run leaves behind. -/
structure Report (σ : Type) where
  outcome : Except Stop Unit
  consumer : σ
  notes : Array Note

namespace Machine

variable {ρ σ : Type} (m : Machine ρ σ)

/-- The report on `line` that follows from how the reading of its content ended. -/
def conclude (line : String) : EStateM.Result Stop (Config ρ σ) Unit → Report σ
  | .ok () c => { outcome := .ok (), consumer := c.consumer, notes := c.notes }
  | .error (.failed e) c =>
    { outcome := .error (if m.options.fatalErrors then .fatal e else .failed e)
      consumer := c.consumer
      notes := c.notes.push (.rejected line e.message) }
  | .error stop c => { outcome := .error stop, consumer := c.consumer, notes := c.notes }

/-- Reads a line with actions that nest up to `bound`. Blanks at its beginning are skipped, and a
line without anything else is accepted without an event. -/
def run (bound : Nat) (line : String) (consumer : σ) : Report σ :=
  let lead := line.toList.takeWhile m.options.isBlank
  match line.toList.dropWhile m.options.isBlank with
  | [] => { outcome := .ok (), consumer, notes := #[] }
  | content => m.conclude line (m.read bound (Text.byteSize lead) content { consumer })

end Machine

end RequestLine
