import Mathlib
import RequestLine.Request.Parse
import RequestLine.Request.Render

/-!
# The places of a request line

While a request line is read, the open states form one of few shapes. A `Place` is such a shape:
a text that belongs to an owner, perhaps inside a quoted literal or behind a backslash, a bracket
literal of a value, or one of the parts that are no text. `Place.next` says what each character
does at each place, with the events it causes, and `Place.finish` what the end of the line does;
both are read off the tables with every chain of actions carried out. Actions never nest here, so
statements about request lines are made over places, and `RequestLine.Proofs.Closing` shows that the
machine goes through exactly these steps.
-/

namespace RequestLine

/-- An open state, apart from its label. -/
structure Opening where
  /-- The byte offset at which the state was opened. -/
  offset : Nat
  opener : Char
  /-- The number of characters that the state has passed on. -/
  forwarded : Nat := 0
  deriving DecidableEq, Repr

namespace Opening

def counted (f : Opening) : Opening :=
  { f with forwarded := f.forwarded + 1 }

def frame (f : Opening) (l : Label) : Frame Label :=
  { state := l, openedAt := f.offset, openedWith := some f.opener, forwarded := f.forwarded }

end Opening

/-- The three kinds of bracket literals. -/
inductive Bracket where
  | brackets
  | braces
  | parens
  deriving DecidableEq, Repr

namespace Bracket

def label : Bracket → Label
  | brackets => .brackets
  | braces => .braces
  | parens => .parens

def opener : Bracket → Char
  | brackets => '['
  | braces => '{'
  | parens => '('

def closer : Bracket → Char
  | brackets => ']'
  | braces => '}'
  | parens => ')'

def ofOpener? (ch : Char) : Option Bracket :=
  if ch = '[' then some brackets
  else if ch = '{' then some braces
  else if ch = '(' then some parens
  else none

theorem ofOpener?_opener (b : Bracket) : ofOpener? b.opener = some b := by
  cases b <;> rfl

theorem ofOpener?_eq_some_iff {ch : Char} {b : Bracket} :
    ofOpener? ch = some b ↔ ch = b.opener := by
  constructor
  · intro h
    unfold ofOpener? at h
    split at h
    · rename_i hch
      rw [← Option.some.inj h, hch]
      rfl
    split at h
    · rename_i hch
      rw [← Option.some.inj h, hch]
      rfl
    split at h
    · rename_i hch
      rw [← Option.some.inj h, hch]
      rfl
    · cases h
  · rintro rfl
    exact ofOpener?_opener b

theorem opener_ne_closer (b : Bracket) : b.opener ≠ b.closer := by
  cases b <;> decide

end Bracket

/-- What a text belongs to, with the states that are open around it. -/
inductive Owner where
  | node (node : Opening)
  | nodeName (node name : Opening)
  | property (list property : Opening)
  | propertyValue (list property value : Opening)
  deriving DecidableEq, Repr

namespace Owner

def label : Owner → Label
  | node _ => .node
  | nodeName _ _ => .nodeName
  | property _ _ => .property
  | propertyValue _ _ _ => .propertyValue

/-- The open states, innermost first. -/
def stack : Owner → List (Frame Label)
  | node f => [f.frame .node]
  | nodeName f g => [g.frame .nodeName, f.frame .node]
  | property f g => [g.frame .property, f.frame .propertyList]
  | propertyValue f g h => [h.frame .propertyValue, g.frame .property, f.frame .propertyList]

def counted : Owner → Owner
  | node f => node f.counted
  | nodeName f g => nodeName f g.counted
  | property f g => property f g.counted
  | propertyValue f g h => propertyValue f g h.counted

/-- Blanks are dropped here: those before the first character of a node's type or name. -/
def skipsBlanks : Owner → Bool
  | node f => f.forwarded = 0
  | nodeName _ g => g.forwarded = 0
  | property _ _ => false
  | propertyValue _ _ _ => false

/-- The characters that end the text or open something in it, quotes and backslashes apart. -/
def marks : Owner → List Char
  | node _ => ['=', '/', ':', '(', '>', ')']
  | nodeName _ _ => ['=', '/', ':', '(', '>', ')']
  | property _ _ => ['=', ',', ')']
  | propertyValue _ _ _ => [',', ')', '[', '{', '(']

end Owner

/-- The quoted literal or the escape inside of which a character of a text stands. -/
inductive Shelter where
  | none
  | escape (escape : Opening)
  | quotes (quotes : Opening)
  | quotesEscape (quotes escape : Opening)
  deriving DecidableEq, Repr

def Shelter.stack : Shelter → List (Frame Label)
  | none => []
  | escape e => [e.frame .escape]
  | quotes q => [q.frame .quotes]
  | quotesEscape q e => [e.frame .escape, q.frame .quotes]

/-- A place of a request line. -/
inductive Place where
  /-- Nothing but blanks has been read. -/
  | start
  | text (owner : Owner) (shelter : Shelter)
  /-- Inside a bracket literal of a value, with `depth` nested ones open. -/
  | literal (list property value : Opening) (kind : Bracket) (bracket : Opening) (depth : Nat)
  | operation (operation : Opening)
  /-- After the parenthesis that opens the list, before its first property. -/
  | list (list : Opening)
  /-- After the parenthesis that closes the list. -/
  | requestEnd (requestEnd : Opening)
  | redirect (redirect : Opening)
  | target (redirect target : Opening)
  deriving DecidableEq, Repr

namespace Place

/-- The open states, innermost first. -/
def stack : Place → List (Frame Label)
  | start => []
  | text w s => s.stack ++ w.stack
  | literal f g h b k depth => { k.frame b.label with depth } :: (Owner.propertyValue f g h).stack
  | operation f => [f.frame .operationName]
  | list f => [f.frame .propertyList]
  | requestEnd f => [f.frame .requestEnd]
  | redirect f => [f.frame .outputRedirect]
  | target f g => [g.frame .outputTarget, f.frame .outputRedirect]

/-- What a character leads to: the events it causes, and a place or an error. -/
abbrev Move := List Event × Except ParseError Place

def unexpected (l : Label) (n : Nat) (ch : Char) : Move :=
  ([], .error { cause := .unexpectedCharacter, offset := n, state := l, found := some ch })

/-- The move with events before it. -/
def after (es : List Event) (move : Move) : Move :=
  (es ++ move.1, move.2)

/-- The end of a node's segment: the next segment or the next part begins. -/
def endSegment (n : Nat) (ch : Char) : Move :=
  let f : Opening := { offset := n, opener := ch }
  let leaving := Event.leaving .node n (some ch)
  if ch = '/' then ([leaving, .entered .node n], .ok (.text (.node f) .none))
  else if ch = ':' then ([leaving, .entered .operationName n], .ok (.operation f))
  else if ch = '(' then ([leaving, .entered .propertyList n], .ok (.list f))
  else ([leaving, .entered .outputRedirect n], .ok (.redirect f))

/-- The end of the list, seen from inside it. -/
def endList (n : Nat) (ch : Char) : Move :=
  ([.leaving .propertyList n (some ch), .entered .requestEnd n],
    .ok (.requestEnd { offset := n, opener := ch }))

/-- The end of a property in the list `f`: the next property begins, or the list ends. -/
def endProperty (n : Nat) (ch : Char) (f : Opening) : Move :=
  let leaving := Event.leaving .property n (some ch)
  if ch = ',' then
    ([leaving, .entered .property n], .ok (.text (.property f { offset := n, opener := ch }) .none))
  else after [leaving] (endList n ch)

/-- What a mark of the owner does to its text. -/
def onMark (n : Nat) (ch : Char) : Owner → Move
  | .node f =>
    if ch = '=' then
      ([.entered .nodeName n], .ok (.text (.nodeName f { offset := n, opener := ch }) .none))
    else if ch = ')' then unexpected .node n ch
    else endSegment n ch
  | .nodeName _ _ =>
    if ch = '=' then unexpected .nodeName n ch
    else if ch = ')' then unexpected .nodeName n ch
    else after [.leaving .nodeName n (some ch)] (endSegment n ch)
  | .property f g =>
    if ch = '=' then
      ([.entered .propertyValue n],
        .ok (.text (.propertyValue f g { offset := n, opener := ch }) .none))
    else endProperty n ch f
  | .propertyValue f g h =>
    match Bracket.ofOpener? ch with
    | some b =>
      ([.entered b.label n, .character b.label ch n],
        .ok (.literal f g h b { offset := n, opener := ch, forwarded := 1 } 0))
    | none => after [.leaving .propertyValue n (some ch)] (endProperty n ch f)

def onText (o : Options) (n : Nat) (ch : Char) (w : Owner) : Move :=
  if o.isBlank ch && w.skipsBlanks then ([], .ok (.text w .none))
  else if ch = '"' then
    ([.entered .quotes n], .ok (.text w (.quotes { offset := n, opener := ch })))
  else if ch = '\\' && o.escapeRule = .backslash then
    ([.entered .escape n], .ok (.text w (.escape { offset := n, opener := ch })))
  else if ch ∈ w.marks then onMark n ch w
  else ([.character w.label ch n], .ok (.text w.counted .none))

def onQuoted (o : Options) (n : Nat) (ch : Char) (w : Owner) (q : Opening) : Move :=
  if ch = '"' then ([.leaving .quotes n (some ch)], .ok (.text w .none))
  else if ch = '\\' && o.escapeRule = .backslash then
    ([.entered .escape n], .ok (.text w (.quotesEscape q { offset := n, opener := ch })))
  else ([.character .quotes ch n], .ok (.text w (.quotes q.counted)))

/-- A character behind a backslash, after which the shelter `s` is left. -/
def onEscaped (n : Nat) (ch : Char) (w : Owner) (s : Shelter) : Move :=
  ([.character .escape ch n, .leaving .escape n (some ch)], .ok (.text w s))

def onLiteral (n : Nat) (ch : Char) (f g h : Opening) (b : Bracket) (k : Opening) (depth : Nat) :
    Move :=
  if ch = b.opener then
    ([.character b.label ch n], .ok (.literal f g h b k.counted (depth + 1)))
  else if ch = b.closer then
    if 0 < depth then ([.character b.label ch n], .ok (.literal f g h b k.counted (depth - 1)))
    else
      ([.character b.label ch n, .leaving b.label n (some ch)],
        .ok (.text (.propertyValue f g h) .none))
  else ([.character b.label ch n], .ok (.literal f g h b k.counted depth))

/-- The end of the operation at a character: the next part, which `entered` and `next` give,
begins if there is a name. -/
def endOperation (n : Nat) (ch : Char) (f : Opening) (entered : Label) (next : Place) : Move :=
  let leaving := Event.leaving .operationName n (some ch)
  if f.forwarded = 0 then
    ([leaving], .error
      { cause := .emptyOperationName, offset := f.offset, state := .operationName
        found := some ch })
  else ([leaving, .entered entered n], .ok next)

def onOperation (o : Options) (n : Nat) (ch : Char) (f : Opening) : Move :=
  let g : Opening := { offset := n, opener := ch }
  if o.isBlank ch && f.forwarded = 0 then ([], .ok (.operation f))
  else if ch = '(' then endOperation n ch f .propertyList (.list g)
  else if ch = '>' then endOperation n ch f .outputRedirect (.redirect g)
  else if ch ∈ [':', '/', '=', ')'] then unexpected .operationName n ch
  else ([.character .operationName ch n], .ok (.operation f.counted))

def onTarget (o : Options) (n : Nat) (ch : Char) (f g : Opening) : Move :=
  if o.isBlank ch && g.forwarded = 0 then ([], .ok (.target f g))
  else ([.character .outputTarget ch n], .ok (.target f g.counted))

/-- What the character `ch` at `n` leads to. -/
def next (o : Options) (n : Nat) (ch : Char) : Place → Move
  | start =>
    let f : Opening := { offset := n, opener := ch }
    if o.isBlank ch then ([], .ok .start)
    else if ch = '/' then
      ([.character .initial ch n, .entered .node n], .ok (.text (.node f) .none))
    else if ch = ':' then ([.entered .operationName n], .ok (.operation f))
    else if ch = '(' then ([.entered .propertyList n], .ok (.list f))
    else if ch = '>' then ([.entered .outputRedirect n], .ok (.redirect f))
    else after [.entered .node n] (onText o n ch (.node f))
  | text w .none => onText o n ch w
  | text w (.escape _) => onEscaped n ch w .none
  | text w (.quotes q) => onQuoted o n ch w q
  | text w (.quotesEscape q _) => onEscaped n ch w (.quotes q)
  | literal f g h b k depth => onLiteral n ch f g h b k depth
  | operation f => onOperation o n ch f
  | list f =>
    if o.isBlank ch then ([], .ok (.list f))
    else if ch = ')' then endList n ch
    else after [.entered .property n] (onText o n ch (.property f { offset := n, opener := ch }))
  | requestEnd f =>
    if o.isBlank ch then ([], .ok (.requestEnd f))
    else if ch = '>' then
      ([.leaving .requestEnd n (some ch), .entered .outputRedirect n],
        .ok (.redirect { offset := n, opener := ch }))
    else unexpected .requestEnd n ch
  | redirect f =>
    if ch = '>' then
      if f.forwarded = 0 then ([.character .outputRedirect ch n], .ok (.redirect f.counted))
      else unexpected .outputRedirect n ch
    else after [.entered .outputTarget n] (onTarget o n ch f { offset := n, opener := ch })
  | target f g => onTarget o n ch f g

abbrev Ending := List Event × Option ParseError

/-- The line ends with a construct open: the error is at `offset`, in the state `l`. -/
def cutOff (cause : Cause) (offset : Nat) (l : Label) : Ending :=
  ([], some { cause, offset, state := l, found := .none })

/-- The end of the line at `n` inside the property list `f`, of which the states `opened` are
closed first. -/
def finishList (n : Nat) (f : Opening) (opened : List Label) : Ending :=
  (opened.map fun l => .leaving l n .none,
    some { cause := .missingCloseParen, offset := f.offset, state := .propertyList
           found := .none })

def finishText (n : Nat) : Owner → Ending
  | .node _ => ([.leaving .node n .none], none)
  | .nodeName _ _ => ([.leaving .nodeName n .none, .leaving .node n .none], none)
  | .property f _ => finishList n f [.property]
  | .propertyValue f _ _ => finishList n f [.propertyValue, .property]

/-- What the end of the line at `n` leads to. -/
def finish (o : Options) (n : Nat) : Place → Ending
  | start => ([], none)
  | text w .none => finishText n w
  | text _ (.escape e) => cutOff .danglingEscape e.offset .escape
  | text _ (.quotes q) => cutOff .unterminatedQuote q.offset .quotes
  | text _ (.quotesEscape _ e) => cutOff .danglingEscape e.offset .escape
  | literal f _ _ b k _ =>
    if o.lenientBrackets then finishList n f [b.label, .propertyValue, .property]
    else cutOff (.unmatchedBracket k.opener) k.offset b.label
  | operation f =>
    ([.leaving .operationName n .none],
      if f.forwarded = 0 then
        some { cause := .emptyOperationName, offset := f.offset, state := .operationName
               found := .none }
      else none)
  | list f => finishList n f []
  | requestEnd _ => ([.leaving .requestEnd n .none], none)
  | redirect _ => cutOff .emptyRedirectTarget n .outputRedirect
  | target _ g =>
    if g.forwarded = 0 then cutOff .emptyRedirectTarget n .outputTarget
    else ([.leaving .outputTarget n .none, .leaving .outputRedirect n .none], none)

/-- The ending with events before it. -/
def delay (es : List Event) (ending : Ending) : Ending :=
  (es ++ ending.1, ending.2)

/-- What the characters `cs`, the first of which stands at `n`, lead to. -/
def feed (o : Options) : Nat → List Char → Place → Move
  | _, [], p => ([], .ok p)
  | n, ch :: cs, p =>
    match p.next o n ch with
    | (es, .error e) => (es, .error e)
    | (es, .ok q) => after es (feed o (n + ch.utf8Size) cs q)

/-- What the characters `cs`, the first of which stands at `n`, and the end of the line after them
lead to. -/
def read (o : Options) (n : Nat) (cs : List Char) (p : Place) : Ending :=
  match p.feed o n cs with
  | (es, .error e) => (es, some e)
  | (es, .ok q) => delay es (q.finish o (n + Text.byteSize cs))

section Append

variable {o : Options} {n : Nat} {xs : List Char} {p q : Place} {es : List Event} {e : ParseError}

theorem feed_append (h : feed o n xs p = (es, .ok q)) (ys : List Char) :
    feed o n (xs ++ ys) p = after es (feed o (n + Text.byteSize xs) ys q) := by
  induction xs generalizing n p es with
  | nil =>
    obtain ⟨rfl, hq⟩ := Prod.mk.inj h
    obtain rfl := Except.ok.inj hq
    rfl
  | cons ch xs ih =>
    simp only [feed] at h
    split at h
    · simp at h
    · rename_i es₁ q₁ hnext
      rcases hfeed : feed o (n + ch.utf8Size) xs q₁ with ⟨es₂, _ | q₂⟩
      · simp [after, hfeed] at h
      · simp only [after, hfeed, Prod.mk.injEq, Except.ok.injEq] at h
        obtain ⟨rfl, rfl⟩ := h
        simp only [List.cons_append, feed, hnext, ih hfeed, after, Text.byteSize_cons,
          List.append_assoc, Nat.add_assoc]

/-- The characters before an error determine it. -/
theorem feed_append_of_error (h : feed o n xs p = (es, .error e)) (ys : List Char) :
    feed o n (xs ++ ys) p = (es, .error e) := by
  induction xs generalizing n p es with
  | nil => simp [feed] at h
  | cons ch xs ih =>
    simp only [feed] at h
    split at h
    · rename_i es₁ e₁ hnext
      simp only [List.cons_append, feed, hnext, h]
    · rename_i es₁ q₁ hnext
      rcases hfeed : feed o (n + ch.utf8Size) xs q₁ with ⟨es₂, e₂ | _⟩
      · simp only [after, hfeed, Prod.mk.injEq, Except.error.injEq] at h
        obtain ⟨rfl, rfl⟩ := h
        simp only [List.cons_append, feed, hnext, ih hfeed, after]
      · simp [after, hfeed] at h

/-- What each character keeps, a stretch of the line keeps. It may speak of the characters and the
events so far, where the first character stands at `k`. -/
theorem feed_invariant (I : List Char → List Event → Place → Prop) (k : Nat)
    (hstep : ∀ {cs es p ch es' q}, I cs es p →
      next o (k + Text.byteSize cs) ch p = (es', .ok q) → I (cs ++ [ch]) (es ++ es') q)
    (xs : List Char) (es : List Event) {ds : List Char} {es' : List Event} (h : I xs es p)
    (hfeed : feed o (k + Text.byteSize xs) ds p = (es', .ok q)) : I (xs ++ ds) (es ++ es') q := by
  induction ds generalizing xs es p es' with
  | nil =>
    cases hfeed
    rwa [List.append_nil, List.append_nil]
  | cons ch ds ih =>
    simp only [feed] at hfeed
    split at hfeed
    · cases hfeed
    · rename_i es₁ q₁ hnext
      obtain ⟨rfl, hq⟩ := Prod.mk.inj hfeed
      have hsize : k + Text.byteSize xs + ch.utf8Size = k + Text.byteSize (xs ++ [ch]) := by
        simp [Nat.add_assoc]
      rw [hsize] at hq ⊢
      have hrest := ih (xs ++ [ch]) (es ++ es₁) (hstep h hnext) (Prod.ext rfl hq)
      rwa [List.append_assoc, List.singleton_append, List.append_assoc] at hrest

theorem read_append (h : feed o n xs p = (es, .ok q)) (ys : List Char) :
    read o n (xs ++ ys) p = delay es (read o (n + Text.byteSize xs) ys q) := by
  rw [read, feed_append h, read]
  rcases feed o (n + Text.byteSize xs) ys q with ⟨es₂, _ | q₂⟩
  · rfl
  · simp only [after, delay, Text.byteSize_append, List.append_assoc, Nat.add_assoc]

theorem delay_delay (es es' : List Event) (ending : Ending) :
    delay es (delay es' ending) = delay (es ++ es') ending := by
  simp only [delay, List.append_assoc]

theorem read_cons {ch : Char} (h : next o n ch p = (es, .ok q)) (cs : List Char) :
    read o n (ch :: cs) p = delay es (read o (n + ch.utf8Size) cs q) := by
  have hone : feed o n [ch] p = (es, .ok q) := by simp [feed, h, after]
  have happend := read_append hone cs
  rwa [Text.byteSize_cons, Text.byteSize_nil, Nat.add_zero] at happend

theorem read_cons_of_error {ch : Char} (h : next o n ch p = (es, .error e)) (cs : List Char) :
    read o n (ch :: cs) p = (es, some e) := by
  rw [read, feed, h]

/-- An event of a stretch of a line comes at one of its characters, or at its end. -/
theorem exists_of_mem_read {cs : List Char} {e : Event} (h : e ∈ (p.read o n cs).1) :
    (∃ before ch rest es q, cs = before ++ ch :: rest ∧ p.feed o n before = (es, .ok q)
        ∧ e ∈ (q.next o (n + Text.byteSize before) ch).1)
      ∨ ∃ es q, p.feed o n cs = (es, .ok q) ∧ e ∈ (q.finish o (n + Text.byteSize cs)).1 := by
  induction cs generalizing n p with
  | nil => exact .inr ⟨[], p, rfl, by simpa [read, feed, delay] using h⟩
  | cons ch cs ih =>
    rcases hnext : p.next o n ch with ⟨es, x | q⟩
    · rw [read_cons_of_error hnext] at h
      exact .inl ⟨[], ch, cs, [], p, rfl, rfl, by simpa [hnext] using h⟩
    rw [read_cons hnext] at h
    have hsize : ∀ k, n + ch.utf8Size + k = n + (ch.utf8Size + k) := fun k => Nat.add_assoc _ _ _
    rcases List.mem_append.mp h with h | h
    · exact .inl ⟨[], ch, cs, [], p, rfl, rfl, by simpa [hnext] using h⟩
    · rcases ih h with ⟨before, x, rest, es', q', rfl, hfeed, he⟩ | ⟨es', q', hfeed, he⟩
      · refine .inl ⟨ch :: before, x, rest, es ++ es', q', rfl, ?_, ?_⟩
        · simp only [feed, hnext, hfeed, after]
        · rwa [Text.byteSize_cons, ← hsize]
      · refine .inr ⟨es ++ es', q', ?_, ?_⟩
        · simp only [feed, hnext, hfeed, after]
        · rwa [Text.byteSize_cons, ← hsize]

/-- A place that opens a state for a character goes on as inside of that state. -/
theorem read_opening {ch : Char} {x : Event} (h : next o n ch p = after [x] (next o n ch q))
    (cs : List Char) : read o n (ch :: cs) p = delay [x] (read o n (ch :: cs) q) := by
  rcases hq : next o n ch q with ⟨es, e | r⟩
  · rw [hq] at h
    rw [read_cons_of_error h, read_cons_of_error hq]
    rfl
  · rw [hq] at h
    rw [read_cons h, read_cons hq]
    simp only [delay, List.append_assoc]

end Append

/-- Blanks at the beginning of a line are passed over. -/
theorem feed_blanks (o : Options) {cs : List Char} (h : cs.all o.isBlank = true) (n : Nat) :
    feed o n cs .start = ([], .ok .start) := by
  induction cs generalizing n with
  | nil => rfl
  | cons ch cs ih =>
    rw [List.all_cons, Bool.and_eq_true] at h
    simp only [feed, next, h.1, if_true, ih h.2, after, List.nil_append]

theorem read_of_blanks (o : Options) {lead : List Char} (h : lead.all o.isBlank = true) (n : Nat)
    (cs : List Char) :
    read o n (lead ++ cs) .start = read o (n + Text.byteSize lead) cs .start :=
  read_append (feed_blanks o h n) cs

end Place

/-- No mark of the grammar is blank, whatever the options. -/
theorem Options.isBlank_of_isMark (o : Options) {ch : Char} (h : Text.isMark ch = true) :
    o.isBlank ch = false := by
  simp only [Text.isMark, List.contains_eq_mem, decide_eq_true_eq, List.mem_cons,
    List.not_mem_nil, or_false] at h
  unfold Options.isBlank
  rcases h with rfl | rfl | rfl | rfl | rfl | rfl | rfl | rfl | rfl | rfl | rfl | rfl | rfl <;>
    split <;> decide

theorem Owner.isMark_of_mem_marks {w : Owner} {ch : Char} (h : ch ∈ w.marks) :
    Text.isMark ch = true := by
  have hall : w.marks.all Text.isMark = true := by cases w <;> rfl
  exact List.all_eq_true.mp hall ch h

theorem Place.onText_of_mark {o : Options} {w : Owner} {n : Nat} {ch : Char}
    (h : ch ∈ w.marks) : onText o n ch w = onMark n ch w := by
  have hb := o.isBlank_of_isMark (Owner.isMark_of_mem_marks h)
  have hq : ch ≠ '"' := by
    rintro rfl
    cases w <;> simp [Owner.marks] at h
  have hs : ch ≠ '\\' := by
    rintro rfl
    cases w <;> simp [Owner.marks] at h
  simp [onText, hb, hq, hs, h]

end RequestLine
