import RequestLine.Proofs.Leniency
import RequestLine.Proofs.Segments

/-!
# Requests from events alone

What becomes of the parts that are done and of the part that is being read can be told from the
events one by one, without the collector (`Progress.take`). The collector does the same as long as
every event is one that can come while such a draft is in hand (`Event.drafts?`), and on its way
through a line every character causes only such events (`Place.drafts_next`). So an accepted line
has the request that its events make (`Request.parse_eq_ok_iff_progress`).
-/

namespace RequestLine

namespace Draft

/-- The draft of a segment whose name begins. -/
def named : Draft → Draft
  | segment type _ => segment type (some [])
  | d => d

/-- The draft of a property whose value begins behind the separator at `n`. -/
def valued (n : Nat) : Draft → Draft
  | property name _ => property name (some (n, []))
  | d => d

/-- The draft of a redirect with a second mark. -/
def appending : Draft → Draft
  | redirect _ target => redirect .append target
  | d => d

/-- The draft with more characters. -/
def addAll (d : Draft) (ps : List (Char × Bool)) : Draft :=
  ps.foldl (fun d p => d.add p) d

theorem addAll_of_add (make : List (Char × Bool) → Draft)
    (hmake : ∀ qs p, (make qs).add p = make (qs ++ [p])) (qs ps : List (Char × Bool)) :
    (make qs).addAll ps = make (qs ++ ps) := by
  induction ps generalizing qs with
  | nil => rw [List.append_nil]; rfl
  | cons p ps ih =>
    have hrest := ih (qs ++ [p])
    rw [← hmake, List.append_assoc] at hrest
    exact hrest

theorem addAll_redirect (mode : RedirectMode) (target ps : List (Char × Bool)) :
    (redirect mode target).addAll ps = redirect mode (target ++ ps) :=
  addAll_of_add (redirect mode) (fun _ _ => rfl) target ps

theorem addAll_value (name value ps : List (Char × Bool)) (n : Nat) :
    (property name (some (n, value))).addAll ps = property name (some (n, value ++ ps)) :=
  addAll_of_add (fun value => property name (some (n, value))) (fun _ _ => rfl) value ps

end Draft

/-- The parts of a request that are done, and the draft of the next one. -/
structure Progress where
  done : Request := {}
  draft : Draft := .nothing

namespace Progress

def enter (x : Progress) (l : Label) (n : Nat) : Progress :=
  match l with
  | .node => { x with draft := .segment [] none }
  | .nodeName => { x with draft := x.draft.named }
  | .operationName => { x with draft := .operation [] }
  | .propertyList => { done := { x.done with properties := some [] }, draft := .nothing }
  | .property => { x with draft := .property [] none }
  | .propertyValue => { x with draft := x.draft.valued n }
  | .requestEnd => { x with draft := .nothing }
  | .outputRedirect => { x with draft := .redirect .overwrite [] }
  | _ => x

def give (x : Progress) (l : Label) (ch : Char) : Progress :=
  if l = .initial then { x with done := { x.done with absolute := true } }
  else if l = .outputRedirect then { x with draft := x.draft.appending }
  else { x with draft := x.draft.add (ch, l.isLiteral) }

def leave (o : Options) (x : Progress) (l : Label) : Progress :=
  if l = x.draft.part then { done := x.draft.into o x.done, draft := .nothing } else x

/-- What an event makes of a request that is being read. -/
def take (o : Options) (x : Progress) : Event → Progress
  | .entered l n => x.enter l n
  | .character l ch _ => x.give l ch
  | .leaving l _ _ => x.leave o l

end Progress

/-- The owner of the text after the state is entered, if it can be entered while `owner` owns the
text. Nothing owns the text while no draft is in hand. -/
def Label.owns? (owner : Label) : Label → Option Label
  | .initial => none
  | .nodeName => if owner = .node then some .nodeName else none
  | .propertyValue => if owner = .property then some .propertyValue else none
  | .outputTarget => if owner = .outputTarget then some .outputTarget else none
  | .quotes | .escape | .brackets | .braces | .parens => some owner
  | .propertyList | .requestEnd => if owner = .initial then some .initial else none
  | .outputRedirect => if owner = .initial then some .outputTarget else none
  | l => if owner = .initial then some l else none

/-- The owner of the text after the state is left. -/
def Label.yields? (owner : Label) : Label → Option Label
  | .node => if owner = .node ∨ owner = .nodeName then some .initial else none
  | .operationName => if owner = .operationName then some .initial else none
  | .property => if owner = .property ∨ owner = .propertyValue then some .initial else none
  | .nodeName => if owner = .nodeName then some owner else none
  | .propertyValue => if owner = .propertyValue then some owner else none
  | .outputTarget => if owner = .outputTarget then some owner else none
  | .propertyList | .requestEnd => if owner = .initial then some owner else none
  | .quotes | .escape | .brackets | .braces | .parens => some owner
  | .initial | .outputRedirect => none

/-- What the event makes of the open states, innermost first, and the owner of the text that is
being read; nothing if it cannot come then. -/
def Event.drafts? (s : List Label × Label) : Event → Option (List Label × Label)
  | .entered l _ => (s.2.owns? l).map fun owner => (l :: s.1, owner)
  | .character l _ _ =>
    if l = .initial then if s.2 = .initial then some s else none
    else if l = .outputRedirect then
      if s.2 = .outputTarget ∧ textOwner s.1 = some (.outputRedirect, false) then some s else none
    else if s.2 ≠ .initial ∧ textOwner s.1 = some (s.2, l.isLiteral) then some s
    else none
  | .leaving l _ _ =>
    if s.1.head? = some l then (s.2.yields? l).map fun owner => (s.1.tail, owner) else none

namespace Progress

variable {o : Options} {st : List Label} {s : List Label × Label} {x : Progress}

/-- The collector that has got this far. -/
def onto (o : Options) (st : List Label) (x : Progress) : Collector :=
  x.draft.onto o st x.done

theorem request_onto (x : Progress) : (x.onto o st).request = x.done := by
  rw [onto]
  cases x.draft <;> rfl

/-- Before and after an event that can come, the collector has got as far. -/
structure Follows (o : Options) (st : List Label) (x : Progress) (e : Event)
    (s : List Label × Label) : Prop where
  onto : (x.onto o st).follow e = (x.take o e).onto o s.1
  label : (x.take o e).draft.label = s.2

theorem follows_entered {l : Label} {n : Nat}
    (h : (Event.entered l n).drafts? (st, x.draft.label) = some s) :
    Follows o st x (.entered l n) s := by
  obtain ⟨done, d⟩ := x
  obtain ⟨owner, howner, rfl⟩ := Option.map_eq_some_iff.mp h
  dsimp only at howner
  rcases d with _ | ⟨type, _ | name⟩ | name | ⟨name, _ | ⟨m, value⟩⟩ | ⟨mode, target⟩ <;>
    cases l <;> cases howner <;> exact ⟨rfl, rfl⟩

theorem follows_character {l : Label} {ch : Char} {n : Nat}
    (h : (Event.character l ch n).drafts? (st, x.draft.label) = some s) :
    Follows o st x (.character l ch n) s := by
  obtain ⟨done, d⟩ := x
  simp only [Event.drafts?] at h
  split at h
  · rename_i hl
    subst hl
    split at h
    · rename_i hd
      obtain rfl := Option.some.inj h
      obtain rfl : d = .nothing := Draft.isOf_of_label hd
      exact ⟨Collector.follow_root _ ch n, rfl⟩
    · cases h
  rename_i hinitial
  split at h
  · rename_i hl
    subst hl
    split at h
    · rename_i hd
      obtain rfl := Option.some.inj h
      obtain ⟨mode, target, rfl⟩ := Draft.isOf_of_label hd.1
      exact ⟨Collector.follow_character
        (c := (Draft.redirect mode target).onto o st done) hinitial hd.2, rfl⟩
    · cases h
  rename_i hredirect
  split at h
  · rename_i hd
    obtain rfl := Option.some.inj h
    have htake : take o { done, draft := d } (.character l ch n)
        = { done, draft := d.add (ch, l.isLiteral) } := by
      simp only [take, give, if_neg hinitial, if_neg hredirect]
    refine ⟨?_, ?_⟩
    · rw [htake]
      exact Draft.follow_character_onto hinitial hd.1 hd.2
    · rw [htake]
      exact Draft.label_add d _
  · cases h

theorem follows_leaving {l : Label} {n : Nat} {c : Option Char}
    (h : (Event.leaving l n c).drafts? (st, x.draft.label) = some s) :
    Follows o st x (.leaving l n c) s := by
  obtain ⟨done, d⟩ := x
  simp only [Event.drafts?] at h
  split at h
  · rename_i hst
    obtain ⟨st, rfl⟩ := List.head?_eq_some_iff.mp hst
    obtain ⟨owner, howner, rfl⟩ := Option.map_eq_some_iff.mp h
    by_cases hpart : l = d.part
    · subst hpart
      have htake : take o { done, draft := d } (.leaving d.part n c)
          = { done := d.into o done, draft := .nothing } := by
        simp only [take, leave, if_true]
      have hredirect : d.part ≠ .outputRedirect := by
        intro hd
        rw [hd] at howner
        cases howner
      refine ⟨by rw [htake]; exact Draft.follow_leaving_part hredirect, ?_⟩
      rw [htake]
      rcases d with _ | ⟨type, _ | name⟩ | name | ⟨name, _ | ⟨m, value⟩⟩ | ⟨mode, target⟩ <;>
        cases howner <;> rfl
    · have htake : take o { done, draft := d } (.leaving l n c) = { done, draft := d } := by
        simp only [take, leave, if_neg hpart]
      refine ⟨?_, ?_⟩ <;> rw [htake] <;>
        rcases d with _ | ⟨type, _ | name⟩ | name | ⟨name, _ | ⟨m, value⟩⟩ | ⟨mode, target⟩ <;>
        cases l <;> cases howner <;> first | rfl | exact absurd rfl hpart
  · cases h

theorem follows {e : Event} (h : e.drafts? (st, x.draft.label) = some s) : Follows o st x e s := by
  cases e with
  | entered l n => exact follows_entered h
  | character l ch n => exact follows_character h
  | leaving l n c => exact follows_leaving h

theorem foldl_follow {es : List Event} (h : es.foldlM Event.drafts? (st, x.draft.label) = some s) :
    es.foldl Collector.follow (x.onto o st) = (es.foldl (take o) x).onto o s.1
      ∧ (es.foldl (take o) x).draft.label = s.2 := by
  induction es generalizing st x with
  | nil =>
    obtain rfl := Option.some.inj h
    exact ⟨rfl, rfl⟩
  | cons e es ih =>
    rw [List.foldlM_cons] at h
    obtain ⟨s', hs', h⟩ := Option.bind_eq_some_iff.mp h
    obtain ⟨honto, hlabel⟩ := follows (o := o) hs'
    rw [List.foldl_cons, List.foldl_cons, honto]
    exact ih (by rw [hlabel]; exact h)

end Progress

namespace Place

/-- The state that owns the text that is being read, none if no draft is in hand. -/
def owning : Place → Label
  | start | list _ | requestEnd _ => .initial
  | text w _ => w.label
  | literal _ _ _ _ _ _ => .propertyValue
  | operation _ => .operationName
  | redirect _ | target _ _ => .outputTarget

/-- The open states, and the state that owns the text. -/
def status (p : Place) : List Label × Label :=
  (p.labels, p.owning)

/-- If the move leads to a place, its events can come before it. -/
def Drafts (s : List Label × Label) (move : Move) : Prop :=
  ∀ q, move.2 = .ok q → move.1.foldlM Event.drafts? s = some q.status

variable {o : Options} {n : Nat} {ch : Char} {p q : Place} {s s' : List Label × Label}
  {es : List Event}

theorem drafts_ok (h : es.foldlM Event.drafts? s = some q.status) : Drafts s (es, .ok q) := by
  rintro q ⟨⟩
  exact h

theorem drafts_unexpected {l : Label} : Drafts s (unexpected l n ch) :=
  fun q hq => by cases hq

theorem Drafts.after {e : Event} {move : Move} (he : e.drafts? s = some s')
    (h : Drafts s' move) : Drafts s (after [e] move) := by
  intro q hq
  rw [Place.after, List.singleton_append, List.foldlM_cons, he]
  exact h q hq

theorem drafts_endSegment {w : Label} (hw : w.yields? .node = some .initial) :
    Drafts ([.node], w) (endSegment n ch) := by
  have hleft : (Event.leaving .node n (some ch)).drafts? ([.node], w) = some ([], .initial) := by
    rw [Event.drafts?, hw]
    rfl
  unfold endSegment
  dsimp only
  repeat' split
  all_goals
    refine drafts_ok ?_
    rw [List.foldlM_cons, hleft]
    rfl

theorem drafts_endList : Drafts ([.propertyList], .initial) (endList n ch) :=
  drafts_ok rfl

theorem drafts_endProperty {f : Opening} {w : Label} (hw : w.yields? .property = some .initial) :
    Drafts ([.property, .propertyList], w) (endProperty n ch f) := by
  have hleft : (Event.leaving .property n (some ch)).drafts? ([.property, .propertyList], w)
      = some ([.propertyList], .initial) := by
    rw [Event.drafts?, hw]
    rfl
  unfold endProperty
  dsimp only
  split
  · refine drafts_ok ?_
    rw [List.foldlM_cons, hleft]
    rfl
  · exact drafts_endList.after hleft

theorem drafts_onMark {w : Owner} : Drafts (text w .none).status (onMark n ch w) := by
  cases w with
  | node f =>
    simp only [onMark]
    split
    · exact drafts_ok rfl
    split
    · exact drafts_unexpected
    · exact drafts_endSegment rfl
  | nodeName f g =>
    simp only [onMark]
    split
    · exact drafts_unexpected
    split
    · exact drafts_unexpected
    · exact (drafts_endSegment (w := .nodeName) rfl).after rfl
  | property f g =>
    simp only [onMark]
    split
    · exact drafts_ok rfl
    · exact drafts_endProperty rfl
  | propertyValue f g v =>
    simp only [onMark]
    split
    · rename_i b hb
      exact drafts_ok (by cases b <;> rfl)
    · exact (drafts_endProperty (w := .propertyValue) rfl).after rfl

theorem drafts_onText {w : Owner} : Drafts (text w .none).status (onText o n ch w) := by
  unfold onText
  split
  · exact drafts_ok rfl
  split
  · exact drafts_ok rfl
  split
  · exact drafts_ok rfl
  split
  · exact drafts_onMark
  · exact drafts_ok (by cases w <;> rfl)

theorem drafts_onQuoted {w : Owner} {x : Opening} :
    Drafts (text w (.quotes x)).status (onQuoted o n ch w x) := by
  unfold onQuoted
  repeat' split
  all_goals exact drafts_ok (by cases w <;> rfl)

theorem drafts_onLiteral {f g v k : Opening} {b : Bracket} {depth : Nat} :
    Drafts (literal f g v b k depth).status (onLiteral n ch f g v b k depth) := by
  unfold onLiteral
  repeat' split
  all_goals exact drafts_ok (by cases b <;> rfl)

theorem drafts_onOperation {f : Opening} :
    Drafts (operation f).status (onOperation o n ch f) := by
  unfold onOperation endOperation
  dsimp only
  repeat' split
  all_goals first | exact drafts_ok rfl | exact fun q hq => by cases hq

theorem drafts_onTarget {f g : Opening} : Drafts (target f g).status (onTarget o n ch f g) := by
  unfold onTarget
  split
  · exact drafts_ok rfl
  · exact drafts_ok rfl

/-- What a character causes at a place can come there. -/
theorem drafts_next : Drafts p.status (p.next o n ch) := by
  cases p with
  | start =>
    simp only [next]
    repeat' split
    all_goals first | exact drafts_ok rfl | exact drafts_onText.after rfl
  | text w s =>
    cases s with
    | none => exact drafts_onText
    | escape e => exact drafts_ok (by cases w <;> rfl)
    | quotes x => exact drafts_onQuoted
    | quotesEscape x e => exact drafts_ok (by cases w <;> rfl)
  | literal f g v b k depth => exact drafts_onLiteral
  | operation f => exact drafts_onOperation
  | list f =>
    simp only [next]
    split
    · exact drafts_ok rfl
    split
    · exact drafts_endList
    · exact Drafts.after rfl (drafts_onText (w := .property f _))
  | requestEnd f =>
    simp only [next]
    repeat' split
    all_goals first | exact drafts_ok rfl | exact drafts_unexpected
  | redirect f =>
    simp only [next]
    split
    · split
      · exact drafts_ok rfl
      · exact drafts_unexpected
    · exact Drafts.after rfl (drafts_onTarget (f := f))
  | target f g => exact drafts_onTarget

theorem drafts_feed {cs : List Char} (h : p.feed o n cs = (es, .ok q)) :
    es.foldlM Event.drafts? p.status = some q.status := by
  refine feed_invariant (fun _ es q => es.foldlM Event.drafts? p.status = some q.status) n
    (fun {_ es p' ch es' q'} h hnext => ?_) [] [] rfl h
  have hstep : Drafts p'.status (es', .ok q') := hnext ▸ drafts_next
  rw [List.foldlM_append, h]
  exact hstep q' rfl

/-- The end of a line can come there too, and it leaves no draft. Only behind a redirect the
collector remembers more. -/
theorem drafts_finish (hp : ∀ f g, p ≠ target f g) (hok : (p.finish o n).2 = none) :
    (p.finish o n).1.foldlM Event.drafts? p.status = some ([], .initial) := by
  cases p with
  | start => rfl
  | text w s =>
    cases s <;> cases w <;> first | rfl | cases hok
  | literal f g v b k depth =>
    simp only [finish] at hok
    split at hok <;> cases hok
  | operation f => rfl
  | list f => cases hok
  | requestEnd f => rfl
  | redirect f => cases hok
  | target f g => exact absurd rfl (hp f g)

theorem follow_finish {x : Progress} (hx : x.draft.label = p.owning)
    (hok : (p.finish o n).2 = none) :
    ((p.finish o n).1.foldl Collector.follow (x.onto o p.labels)).request
      = ((p.finish o n).1.foldl (Progress.take o) x).done := by
  by_cases hp : ∃ f g, p = target f g
  · obtain ⟨f, g, rfl⟩ := hp
    obtain ⟨done, d⟩ := x
    obtain ⟨mode, text, rfl⟩ := Draft.isOf_of_label hx
    simp only [finish] at hok ⊢
    split at hok
    · cases hok
    · rename_i hsome
      let d : Draft := .redirect mode text
      obtain ⟨mode', hfollow⟩ : ∃ mode', (d.onto o [d.part] done).follow (.leaving d.part n none)
          = { options := o, stack := [], request := d.into o done, mode := mode' } :=
        d.exists_follow_leaving_part
      rw [if_neg hsome]
      exact congrArg Collector.request hfollow
  · have hdrafts := drafts_finish (fun f g hp' => hp ⟨f, g, hp'⟩) hok
    rw [status, ← hx] at hdrafts
    rw [(Progress.foldl_follow hdrafts).1]
    exact Progress.request_onto _

end Place

/-- What a state passes on goes to the text that is being read. -/
theorem Progress.foldl_take_passes {o : Options} {l : Label} (hinitial : l ≠ .initial)
    (hredirect : l ≠ .outputRedirect) (n : Nat) (cs : List Char) (x : Progress) :
    (passes l n cs).foldl (take o) x
      = { x with draft := x.draft.addAll (cs.map fun ch => (ch, l.isLiteral)) } := by
  induction cs generalizing n x with
  | nil => rfl
  | cons ch cs ih =>
    have htake : x.take o (.character l ch n)
        = { x with draft := x.draft.add (ch, l.isLiteral) } := by
      simp only [take, give, if_neg hinitial, if_neg hredirect]
    rw [passes, List.foldl_cons, ih, htake]
    rfl

/-- The request of an accepted line is what its events make of nothing. -/
theorem Request.parse_eq_ok_iff_progress {o : Options} {line : String} {r : Request} :
    Request.parse o line = .ok r ↔ (Place.read o 0 line.toList .start).2 = none
      ∧ ((Place.read o 0 line.toList .start).1.foldl (Progress.take o) {}).done = r := by
  rw [Request.parse_eq_ok_iff_follow]
  refine and_congr_right fun hok => ?_
  obtain ⟨es, q, hfeed, hread⟩ := Place.exists_feed_of_read hok
  rw [hread] at hok ⊢
  obtain ⟨hfold, hlabel⟩ := Progress.foldl_follow (o := o) (x := {}) (Place.drafts_feed hfeed)
  have hfollow : es.foldl Collector.follow { options := o }
      = (es.foldl (Progress.take o) {}).onto o q.labels := hfold
  rw [Place.delay, List.foldl_append, List.foldl_append, hfollow, Place.follow_finish hlabel hok]

/-- The error of reading a line is that of parsing it. -/
theorem Request.parse_error_of_read {o : Options} {line : String} {e : ParseError}
    (h : (Place.read o 0 line.toList .start).2 = some e) :
    ∃ stop, Request.parse o line = .error stop ∧ stop.error? = some e := by
  obtain ⟨stop, hverdict, hstop⟩ := Place.exists_stop_of_error o e
  refine ⟨stop, ?_, hstop⟩
  rw [Request.parse_eq, h, hverdict]
  rfl

end RequestLine
