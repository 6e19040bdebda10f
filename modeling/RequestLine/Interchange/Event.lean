import RequestLine.Event
import RequestLine.Interchange.Value

/-!
# Events as values
-/

namespace RequestLine

def Label.toValue (l : Label) : Value :=
  .text l.id

/-- The label that a value stands for. As the only part of a record it may have an empty record for
its content, too. -/
def Label.ofValue? : Value → Option Label
  | .record [(id, .record [])] => Label.ofId? id
  | v => v.word?.bind Label.ofId?

namespace Event

/-- The event as a record whose part `kind` tells the three kinds apart. -/
def toValue : Event → Value
  | entered s n => .record [("kind", .text "Entered"), ("state", s.toValue), ("offset", .ofNat n)]
  | character s c n =>
    .record [("kind", .text "Character"), ("state", s.toValue), ("ch", .ofChar c),
      ("offset", .ofNat n)]
  | leaving s n c =>
    .record [("kind", .text "Leaving"), ("state", s.toValue), ("offset", .ofNat n),
      ("closing", .ofOption .ofChar c)]

/-- The event of the given kind with the parts `v`. -/
def ofParts? (kind : String) (v : Value) : Option Event :=
  match kind with
  | "Entered" =>
    match v.parts? ["state", "offset"] with
    | some [s, n] =>
      return entered (← Value.required Label.ofValue? s) (← Value.required Value.offset? n)
    | _ => none
  | "Character" =>
    match v.parts? ["state", "ch", "offset"] with
    | some [s, c, n] =>
      return character (← Value.required Label.ofValue? s) (← Value.required Value.char? c)
        (← Value.required Value.offset? n)
    | _ => none
  | "Leaving" =>
    match v.parts? ["state", "offset", "closing"] with
    | some [s, n, c] =>
      return leaving (← Value.required Label.ofValue? s) (← Value.required Value.offset? n)
        (← Value.optional Value.char? c)
    | _ => none
  | _ => none

/-- The event that a value stands for. -/
def ofValue? : Value → Option Event
  | .record parts => do
    let kind ← Value.required Value.text? (parts.lookup "kind")
    ofParts? kind (.record parts)
  | .list (kind :: parts) => do ofParts? (← kind.text?) (.list parts)
  | _ => none

end Event

end RequestLine
