import RequestLine.Proofs.Draft

/-!
# Reading further to the right

What a character does at a place does not depend on where the open states were opened: at places
that are alike up to that (`Place.Alike`) the same characters cause the same events, further to the
right by the distance between them (`Place.read_shift`). The collector takes events from further to
the right, and behind a request that is there already, as it takes the events themselves
(`Collector.follow_behind`).
-/

namespace RequestLine

/-! ## Places -/

theorem Owner.marks_of_label {w w' : Owner} (h : w'.label = w.label) : w'.marks = w.marks := by
  cases w <;> cases w' <;> first | rfl | cases h

/-- The owners differ in where their states were opened, and in nothing else. -/
inductive Owner.Alike : Owner → Owner → Prop
  | node {f f' : Opening} (h : f'.forwarded = f.forwarded) : Alike (.node f) (.node f')
  | nodeName {f f' g g' : Opening} (h : g'.forwarded = g.forwarded) :
    Alike (.nodeName f g) (.nodeName f' g')
  | property {f f' g g' : Opening} : Alike (.property f g) (.property f' g')
  | propertyValue {f f' g g' v v' : Opening} :
    Alike (.propertyValue f g v) (.propertyValue f' g' v')

namespace Owner.Alike

variable {w w' : Owner}

theorem label (h : Alike w w') : w'.label = w.label := by
  cases h <;> rfl

theorem marks (h : Alike w w') : w'.marks = w.marks :=
  marks_of_label h.label

theorem skipsBlanks (h : Alike w w') : w'.skipsBlanks = w.skipsBlanks := by
  cases h with
  | node h => simp only [Owner.skipsBlanks, h]
  | nodeName h => simp only [Owner.skipsBlanks, h]
  | property => rfl
  | propertyValue => rfl

theorem counted (h : Alike w w') : Alike w.counted w'.counted := by
  cases h with
  | node h => exact .node (by simp only [Opening.counted, h])
  | nodeName h => exact .nodeName (by simp only [Opening.counted, h])
  | property => exact .property
  | propertyValue => exact .propertyValue

end Owner.Alike

inductive Shelter.Alike : Shelter → Shelter → Prop
  | none : Alike .none .none
  | escape {e e' : Opening} : Alike (.escape e) (.escape e')
  | quotes {q q' : Opening} : Alike (.quotes q) (.quotes q')
  | quotesEscape {q q' e e' : Opening} : Alike (.quotesEscape q e) (.quotesEscape q' e')

/-- The event, further to the right by `d`. -/
def Event.shift (d : Nat) : Event → Event
  | .entered l n => .entered l (n + d)
  | .character l ch n => .character l ch (n + d)
  | .leaving l n x => .leaving l (n + d) x

namespace Place

/-- The places differ in where their states were opened, and in nothing else. -/
inductive Alike : Place → Place → Prop
  | start : Alike .start .start
  | text {w w' : Owner} {s s' : Shelter} (hw : w.Alike w') (hs : s.Alike s') :
    Alike (.text w s) (.text w' s')
  | literal {f f' g g' v v' k k' : Opening} {b : Bracket} {depth : Nat} :
    Alike (.literal f g v b k depth) (.literal f' g' v' b k' depth)
  | operation {f f' : Opening} (h : f'.forwarded = f.forwarded) :
    Alike (.operation f) (.operation f')
  | list {f f' : Opening} : Alike (.list f) (.list f')
  | requestEnd {f f' : Opening} : Alike (.requestEnd f) (.requestEnd f')
  | redirect {f f' : Opening} (h : f'.forwarded = f.forwarded) : Alike (.redirect f) (.redirect f')
  | target {f f' g g' : Opening} (h : g'.forwarded = g.forwarded) :
    Alike (.target f g) (.target f' g')

theorem Alike.refl (p : Place) : Alike p p := by
  have howner : ∀ w : Owner, w.Alike w := fun w => by
    cases w
    · exact .node rfl
    · exact .nodeName rfl
    · exact .property
    · exact .propertyValue
  have hshelter : ∀ s : Shelter, s.Alike s := fun s => by
    cases s
    · exact .none
    · exact .escape
    · exact .quotes
    · exact .quotesEscape
  cases p with
  | start => exact .start
  | text w s => exact .text (howner w) (hshelter s)
  | literal f g v b k depth => exact .literal
  | operation f => exact .operation rfl
  | list f => exact .list
  | requestEnd f => exact .requestEnd
  | redirect f => exact .redirect rfl
  | target f g => exact .target rfl

/-- The second move is the first one, further to the right by `d`. -/
inductive Shifts (d : Nat) : Move → Move → Prop
  | ok {q q' : Place} (es : List Event) (h : Alike q q') :
    Shifts d (es, .ok q) (es.map (Event.shift d), .ok q')
  | error (es : List Event) (e e' : ParseError) :
    Shifts d (es, .error e) (es.map (Event.shift d), .error e')

variable {o : Options} {n d : Nat} {ch : Char} {p p' : Place}

section Characters

variable {w w' : Owner}

theorem Shifts.after {move move' : Move} (h : Shifts d move move') (x : Event) :
    Shifts d (after [x] move) (after [x.shift d] move') := by
  cases h with
  | ok es h => exact .ok (x :: es) h
  | error es e e' => exact .error (x :: es) e e'

theorem shifts_unexpected (l : Label) : Shifts d (unexpected l n ch) (unexpected l (n + d) ch) :=
  .error [] _ _

theorem shifts_endSegment : Shifts d (endSegment n ch) (endSegment (n + d) ch) := by
  unfold endSegment
  dsimp only
  split
  · exact .ok [_, _] (.text (.node rfl) .none)
  split
  · exact .ok [_, _] (.operation rfl)
  split
  · exact .ok [_, _] .list
  · exact .ok [_, _] (.redirect rfl)

theorem shifts_endList : Shifts d (endList n ch) (endList (n + d) ch) :=
  .ok [_, _] .requestEnd

theorem shifts_endProperty {f f' : Opening} :
    Shifts d (endProperty n ch f) (endProperty (n + d) ch f') := by
  unfold endProperty
  dsimp only
  split
  · exact .ok [_, _] (.text .property .none)
  · exact shifts_endList.after _

/-- A mark does the same to all texts of one kind. -/
theorem shifts_onMark (h : w'.label = w.label) :
    Shifts d (onMark n ch w) (onMark (n + d) ch w') := by
  cases w with
  | node f =>
    obtain ⟨f', rfl⟩ : ∃ f', w' = .node f' := by
      cases w' <;> first | exact ⟨_, rfl⟩ | cases h
    simp only [onMark]
    split
    · exact .ok [_] (.text (.nodeName rfl) .none)
    split
    · exact shifts_unexpected .node
    · exact shifts_endSegment
  | nodeName f g =>
    obtain ⟨f', g', rfl⟩ : ∃ f' g', w' = .nodeName f' g' := by
      cases w' <;> first | exact ⟨_, _, rfl⟩ | cases h
    simp only [onMark]
    split
    · exact shifts_unexpected .nodeName
    split
    · exact shifts_unexpected .nodeName
    · exact shifts_endSegment.after _
  | property f g =>
    obtain ⟨f', g', rfl⟩ : ∃ f' g', w' = .property f' g' := by
      cases w' <;> first | exact ⟨_, _, rfl⟩ | cases h
    simp only [onMark]
    split
    · exact .ok [_] (.text .propertyValue .none)
    · exact shifts_endProperty
  | propertyValue f g v =>
    obtain ⟨f', g', v', rfl⟩ : ∃ f' g' v', w' = .propertyValue f' g' v' := by
      cases w' <;> first | exact ⟨_, _, _, rfl⟩ | cases h
    simp only [onMark]
    rcases Bracket.ofOpener? ch with _ | b
    · exact shifts_endProperty.after _
    · exact .ok [_, _] .literal

theorem shifts_onText (h : w.Alike w') : Shifts d (onText o n ch w) (onText o (n + d) ch w') := by
  unfold onText
  rw [h.skipsBlanks, h.marks, h.label]
  split
  · exact .ok [] (.text h .none)
  split
  · exact .ok [_] (.text h .quotes)
  split
  · exact .ok [_] (.text h .escape)
  split
  · exact shifts_onMark h.label
  · exact .ok [_] (.text h.counted .none)

theorem shifts_onQuoted {q q' : Opening} (h : w.Alike w') :
    Shifts d (onQuoted o n ch w q) (onQuoted o (n + d) ch w' q') := by
  unfold onQuoted
  split
  · exact .ok [_] (.text h .none)
  split
  · exact .ok [_] (.text h .quotesEscape)
  · exact .ok [_] (.text h .quotes)

theorem shifts_onLiteral {f f' g g' v v' k k' : Opening} {b : Bracket} {depth : Nat} :
    Shifts d (onLiteral n ch f g v b k depth) (onLiteral (n + d) ch f' g' v' b k' depth) := by
  unfold onLiteral
  split
  · exact .ok [_] .literal
  split
  · split
    · exact .ok [_] .literal
    · exact .ok [_, _] (.text .propertyValue .none)
  · exact .ok [_] .literal

theorem shifts_endOperation {f f' : Opening} {l : Label}
    (hf : f'.forwarded = 0 ↔ f.forwarded = 0) (h : Alike p p') :
    Shifts d (endOperation n ch f l p) (endOperation (n + d) ch f' l p') := by
  unfold endOperation
  simp only [hf]
  split
  · exact .error [_] _ _
  · exact .ok [_, _] h

theorem shifts_onOperation {f f' : Opening} (h : f'.forwarded = f.forwarded) :
    Shifts d (onOperation o n ch f) (onOperation o (n + d) ch f') := by
  unfold onOperation
  rw [h]
  dsimp only
  split
  · exact .ok [] (.operation h)
  split
  · exact shifts_endOperation (by rw [h]) .list
  split
  · exact shifts_endOperation (by rw [h]) (.redirect rfl)
  split
  · exact shifts_unexpected .operationName
  · exact .ok [_] (.operation (by simp only [Opening.counted, h]))

theorem shifts_onTarget {f f' g g' : Opening} (h : g'.forwarded = g.forwarded) :
    Shifts d (onTarget o n ch f g) (onTarget o (n + d) ch f' g') := by
  unfold onTarget
  rw [h]
  split
  · exact .ok [] (.target h)
  · exact .ok [_] (.target (by simp only [Opening.counted, h]))

/-- A character does the same at places that are alike. -/
theorem shifts_next (h : Alike p p') : Shifts d (p.next o n ch) (p'.next o (n + d) ch) := by
  cases h with
  | start =>
    simp only [next]
    split
    · exact .ok [] .start
    split
    · exact .ok [_, _] (.text (.node rfl) .none)
    split
    · exact .ok [_] (.operation rfl)
    split
    · exact .ok [_] .list
    split
    · exact .ok [_] (.redirect rfl)
    · have hnode : Owner.Alike (.node { offset := n, opener := ch })
          (.node { offset := n + d, opener := ch }) := .node rfl
      exact (shifts_onText hnode).after (.entered .node n)
  | text hw hs =>
    cases hs with
    | none => exact shifts_onText hw
    | escape => exact .ok [_, _] (.text hw .none)
    | quotes => exact shifts_onQuoted hw
    | quotesEscape => exact .ok [_, _] (.text hw .quotes)
  | literal => exact shifts_onLiteral
  | operation h => exact shifts_onOperation h
  | list =>
    simp only [next]
    split
    · exact .ok [] .list
    split
    · exact shifts_endList
    · exact (shifts_onText .property).after _
  | requestEnd =>
    simp only [next]
    split
    · exact .ok [] .requestEnd
    split
    · exact .ok [_, _] (.redirect rfl)
    · exact shifts_unexpected .requestEnd
  | redirect h =>
    simp only [next]
    rw [h]
    split
    · split
      · exact .ok [_] (.redirect (by simp only [Opening.counted, h]))
      · exact shifts_unexpected .outputRedirect
    · have hforwarded : Opening.forwarded { offset := n + d, opener := ch }
          = Opening.forwarded { offset := n, opener := ch } := rfl
      exact (shifts_onTarget hforwarded).after (.entered .outputTarget n)
  | target h => exact shifts_onTarget h

end Characters

theorem finishList_shift {f f' : Opening} {ls : List Label} :
    (finishList (n + d) f' ls).1 = (finishList n f ls).1.map (Event.shift d)
      ∧ ((finishList (n + d) f' ls).2 = none ↔ (finishList n f ls).2 = none) :=
  ⟨by simp [finishList, Event.shift], by simp [finishList]⟩

theorem finish_shift (h : Alike p p') :
    (p'.finish o (n + d)).1 = (p.finish o n).1.map (Event.shift d)
      ∧ ((p'.finish o (n + d)).2 = none ↔ (p.finish o n).2 = none) := by
  cases h with
  | start => exact ⟨rfl, Iff.rfl⟩
  | text hw hs =>
    cases hs with
    | none =>
      cases hw with
      | node h => exact ⟨rfl, Iff.rfl⟩
      | nodeName h => exact ⟨rfl, Iff.rfl⟩
      | property => exact finishList_shift
      | propertyValue => exact finishList_shift
    | escape => exact ⟨rfl, by simp [finish, cutOff]⟩
    | quotes => exact ⟨rfl, by simp [finish, cutOff]⟩
    | quotesEscape => exact ⟨rfl, by simp [finish, cutOff]⟩
  | literal =>
    simp only [finish]
    split
    · exact finishList_shift
    · exact ⟨rfl, by simp [cutOff]⟩
  | operation h =>
    simp only [finish, h]
    exact ⟨rfl, by split <;> simp⟩
  | list => exact finishList_shift
  | requestEnd => exact ⟨rfl, Iff.rfl⟩
  | redirect h => exact ⟨rfl, by simp [finish, cutOff]⟩
  | target h =>
    simp only [finish, h]
    split
    · exact ⟨rfl, by simp [cutOff]⟩
    · exact ⟨rfl, Iff.rfl⟩

/-- Places that are alike accept the same, with the same events further to the right. -/
theorem read_shift (h : Alike p p') (cs : List Char) :
    (p'.read o (n + d) cs).1 = (p.read o n cs).1.map (Event.shift d)
      ∧ ((p'.read o (n + d) cs).2 = none ↔ (p.read o n cs).2 = none) := by
  induction cs generalizing n p p' with
  | nil => simpa [read, feed, delay] using finish_shift h
  | cons ch cs ih =>
    have hstep : Shifts d (p.next o n ch) (p'.next o (n + d) ch) := shifts_next h
    rcases hnext : p.next o n ch with ⟨es, e | q⟩ <;>
      rcases hnext' : p'.next o (n + d) ch with ⟨es', e' | q'⟩ <;>
      rw [hnext, hnext'] at hstep
    · rw [read_cons_of_error hnext, read_cons_of_error hnext']
      cases hstep
      exact ⟨rfl, by simp⟩
    · cases hstep
    · cases hstep
    · cases hstep with
      | ok _ hq =>
        have hsize : n + d + ch.utf8Size = n + ch.utf8Size + d := by omega
        obtain ⟨hevents, haccepts⟩ := ih (n := n + ch.utf8Size) hq
        rw [read_cons hnext, read_cons hnext', hsize]
        simp only [delay, hevents, List.map_append, haccepts, and_self]

/-- No event of a stretch stands before it. -/
theorem le_offset_read {cs : List Char} {e : Event} (h : e ∈ (p.read o n cs).1) : n ≤ e.offset := by
  have hshift := (read_shift (o := o) (n := 0) (d := n) (Alike.refl p) cs).1
  rw [Nat.zero_add] at hshift
  rw [hshift] at h
  obtain ⟨x, -, rfl⟩ := List.mem_map.mp h
  cases x <;> exact Nat.le_add_left _ _

end Place

/-! ## The collector -/

/-- The property of a line that stands further to the right by `d`. -/
def Property.shift (d : Nat) (p : Property) : Property :=
  { p with valueSeparator := p.valueSeparator.map (· + d) }

/-- The request `q`, which stands further to the right by `d`, as the continuation of an address. -/
def Request.behind (r : Request) (d : Nat) (q : Request) : Request :=
  { absolute := r.absolute || q.absolute
    address := r.address ++ q.address
    operation := q.operation
    properties := q.properties.map (List.map (Property.shift d))
    redirect := q.redirect }

theorem Request.behind_empty {r : Request} (hr : r.IsAddress) (d : Nat) : r.behind d {} = r := by
  obtain ⟨hoperation, hproperties, hredirect⟩ := hr
  obtain ⟨absolute, address, operation, properties, redirect⟩ := r
  subst hoperation hproperties hredirect
  simp [behind]

namespace Collector

/-- The collector with its request behind the request `r`. -/
def behind (r : Request) (d : Nat) (c : Collector) : Collector :=
  { c with
    request := r.behind d c.request
    property := { c.property with valueSeparator := c.property.valueSeparator.map (· + d) } }

variable {r : Request} {d : Nat} {c : Collector}

theorem give_behind (l : Label) (ch : Char) (keep : Bool) :
    ((c.behind r d).give l ch keep).plain = ((c.give l ch keep).plain).behind r d := by
  cases l <;> rfl

theorem finishSegment_behind : (c.behind r d).finishSegment = c.finishSegment.behind r d := by
  simp only [finishSegment_eq, behind, Request.behind, List.append_assoc]
  rfl

theorem pendingProperty_behind :
    (c.behind r d).pendingProperty = c.pendingProperty.map (Property.shift d) := by
  have htext : (c.behind r d).textOf = c.textOf := rfl
  have hname : (c.behind r d).property.name = c.property.name := rfl
  have hvalue : (c.behind r d).property.value = c.property.value := rfl
  simp only [pendingProperty, writtenProperty, htext, hname, hvalue]
  split <;> rfl

theorem finishProperty_behind : (c.behind r d).finishProperty = c.finishProperty.behind r d := by
  have hproperties : (c.request.properties.map (List.map (Property.shift d))).map
      (· ++ (c.pendingProperty.map (Property.shift d)).toList)
        = (c.request.properties.map (· ++ c.pendingProperty.toList)).map
          (List.map (Property.shift d)) := by
    rw [Option.map_map, Option.map_map]
    refine congrArg (c.request.properties.map ·) (funext fun ps => ?_)
    cases c.pendingProperty <;> simp
  rw [finishProperty_eq, finishProperty_eq, pendingProperty_behind]
  exact congrArg (fun ps : Option (List Property) =>
    { c with
      property := {}
      request := { r.behind d c.request with properties := ps } }) hproperties

/-- An event from further to the right does behind a request what the event itself does. -/
theorem follow_behind (e : Event) :
    (c.behind r d).follow (e.shift d) = (c.follow e).behind r d := by
  cases e with
  | entered l n => cases l <;> rfl
  | character l ch n =>
    change ((c.behind r d).take l ch).plain = (c.take l ch).plain.behind r d
    have hseen : (c.behind r d).seen ch = (c.seen ch).behind r d := by
      unfold seen
      change (if c.options.isBlank ch then c.behind r d else _) = _
      split <;> rfl
    rw [take_eq, take_eq, hseen]
    generalize c.seen ch = c
    split
    · exact congrArg (fun absolute : Bool =>
        plain { c.behind r d with request := { r.behind d c.request with absolute } })
        (Bool.or_true r.absolute).symm
    · have hstack : (c.behind r d).stack = c.stack := rfl
      rw [hstack]
      rcases textOwner c.stack with _ | ⟨owner, keep⟩
      · rfl
      · exact give_behind owner ch keep
  | leaving l n x =>
    change (c.behind r d).follow (.leaving l (n + d) x) = _
    rw [follow_leaving, follow_leaving]
    cases l
    case node => exact congrArg plain (finishSegment_behind (c := { c with stack := c.stack.tail }))
    case property =>
      exact congrArg plain (finishProperty_behind (c := { c with stack := c.stack.tail }))
    case operationName =>
      rw [leave_operationName, leave_operationName]
      change plain (if c.operation.isEmpty then _ else _) = _
      split <;> rfl
    all_goals rfl

theorem foldl_follow_behind (es : List Event) :
    (es.map (Event.shift d)).foldl follow (c.behind r d) = (es.foldl follow c).behind r d := by
  induction es generalizing c with
  | nil => rfl
  | cons e es ih => rw [List.map_cons, List.foldl_cons, follow_behind, ih, List.foldl_cons]

end Collector

end RequestLine
