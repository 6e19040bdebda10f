import RequestLine.Event

/-!
# Event consumers

A sink takes the events of a run one by one. It may change its state with each of them, and it may
refuse one with a reason, which ends the run.
-/

namespace RequestLine

/-- A consumer of events with state `σ`, which refuses an event by failing with a reason. -/
abbrev Sink (σ : Type) := Event → EStateM String σ Unit

namespace Sink

/-- The sink that takes every event and keeps nothing. -/
def ignore : Sink Unit :=
  fun _ => pure ()

/-- The sink that follows a function and never refuses. -/
def ofStep {σ : Type} (step : σ → Event → σ) : Sink σ :=
  fun e => modify (step · e)

/-- The sink that writes every event down. -/
def record : Sink (Array Event) :=
  ofStep Array.push

/-- Two sinks in one: each event goes to the first and then, unless refused, to the second. -/
def both {σ τ : Type} (a : Sink σ) (b : Sink τ) : Sink (σ × τ) := fun e (s, t) =>
  match a e s with
  | .error reason s => .error reason (s, t)
  | .ok () s =>
    match b e t with
    | .error reason t => .error reason (s, t)
    | .ok () t => .ok () (s, t)

end Sink

/-- The three kinds of events. -/
inductive EventKind where
  | entered
  | character
  | leaving
  deriving DecidableEq, Repr

def Event.kind : Event → EventKind
  | entered _ _ => .entered
  | character _ _ _ => .character
  | leaving _ _ _ => .leaving

/-- A rule by which a sink refuses events. A part that is left out fits every event. -/
structure Refusal where
  kind : Option EventKind := none
  state : Option Label := none
  /-- The event's character; the rule may ask that there is none. -/
  ch : Option (Option Char) := none
  reason : String := ""
  deriving DecidableEq, Repr

/-- The rule is about the event. -/
def Refusal.fits (r : Refusal) (e : Event) : Bool :=
  r.kind.all (· = e.kind) && r.state.all (· = e.state) && r.ch.all (· = e.ch)

/-- The sink that writes events down until `limit` of them are written, and refuses those that a
rule is about. The limit is asked first, then the rules in order. -/
def Sink.recordUnless (limit : Option Nat) (rules : List Refusal) : Sink (Array Event) := fun e s =>
  if limit.any (· ≤ s.size) then .error "limit" s
  else
    match rules.find? (·.fits e) with
    | some r => .error r.reason s
    | none => .ok () (s.push e)

end RequestLine
