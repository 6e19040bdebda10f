import RequestLine.Proofs.Conservation
import RequestLine.Proofs.Properties
import RequestLine.Proofs.Viable

/-!
# When a line is a complete request

The collector takes a request to be complete if it names an operation and its property list, if it
has one, is closed. It is told so by three different events, and an error can come between any two
of them. A list is open in the collector just while it is the outermost state of the place
(`Place.lists_next`), and there are few ways in which a place ends in an error
(`Place.stuck_read`). So the answer is the one that the state of the error gives
(`completeness_is_exact`).
-/

namespace RequestLine

/-- The states that come after the properties of a request. -/
def Request.lastStates : List Label :=
  [.requestEnd, .outputRedirect, .outputTarget]

/-- Whether a property list is open after the event, if `isOpen` tells it before. The events of a
line leave a list by its parenthesis only. -/
def Event.list? (isOpen : Bool) : Event → Option Bool
  | .entered .propertyList _ => some true
  | .leaving .propertyList _ x => if x = some ')' then some false else none
  | _ => some isOpen

namespace Collector

variable {c : Collector} {e : Event} {es : List Event} {b : Bool}

/-- The request has a property list that has not met its closing parenthesis. -/
def listOpen (c : Collector) : Bool :=
  c.request.properties.isSome && !c.listClosed

theorem isComplete_eq (c : Collector) :
    c.isComplete = (c.request.operation.any (· ≠ "") && !c.listOpen) := by
  unfold isComplete listOpen
  cases c.request.properties <;> cases c.listClosed <;> simp

/-- If no list is open, only the operation counts. -/
theorem isComplete_of_closed (hclosed : c.listOpen = false)
    (hnamed : c.request.operation ≠ some "") :
    c.isComplete = true ↔ c.request.operation ≠ none := by
  rw [isComplete_eq, hclosed, Bool.not_false, Bool.and_true]
  cases hop : c.request.operation with
  | none => simp
  | some name =>
    have hname : name ≠ "" := fun heq => hnamed (by rw [hop, heq])
    simp [hname]

theorem take_listOpen (c : Collector) (l : Label) (ch : Char) :
    (c.take l ch).listOpen = c.listOpen := by
  have hclosed : (c.take l ch).listClosed = c.listClosed := by
    have hseen : (c.seen ch).listClosed = c.listClosed := by
      unfold seen
      split <;> rfl
    rw [take_eq]
    split
    · exact hseen
    · split
      · exact hseen
      · rename_i owner keep _
        rw [← hseen]
        cases owner <;> rfl
  unfold listOpen
  rw [hclosed, take_request]
  split <;> rfl

theorem listOpen_step (h : e.list? c.listOpen = some b) : (c.step e).listOpen = b := by
  cases e with
  | entered l n => cases l <;> exact Option.some.inj h
  | character l ch n => exact (c.take_listOpen l ch).trans (Option.some.inj h)
  | leaving l n x =>
    change (c.leave l x).listOpen = b
    cases l
    case propertyList =>
      simp only [Event.list?] at h
      split at h
      · rename_i hx
        obtain rfl := Option.some.inj h
        change (c.request.properties.isSome && !decide (x = some ')')) = _
        simp [hx]
      · cases h
    case node =>
      obtain rfl := Option.some.inj h
      rw [leave_node]
      split <;> rfl
    case operationName =>
      obtain rfl := Option.some.inj h
      rw [leave_operationName]
      split <;> rfl
    case property =>
      obtain rfl := Option.some.inj h
      rw [leave_property, finishProperty_eq]
      split <;> simp [listOpen]
    all_goals exact Option.some.inj h

theorem listOpen_foldl_step (h : es.foldlM Event.list? c.listOpen = some b) :
    (es.foldl step c).listOpen = b := by
  induction es generalizing c with
  | nil => exact Option.some.inj h
  | cons e es ih =>
    rw [List.foldlM_cons] at h
    obtain ⟨b', hb', h⟩ := Option.bind_eq_some_iff.mp h
    rw [List.foldl_cons]
    exact ih ((listOpen_step hb').symm ▸ h)

/-- A list that is entered and not left stays open. -/
theorem listOpen_of_entered (hleft : ∀ n x, .leaving .propertyList n x ∉ es)
    (h : c.listOpen = true ∨ ∃ n, .entered .propertyList n ∈ es) :
    (es.foldl step c).listOpen = true := by
  induction es generalizing c with
  | nil => simpa using h
  | cons e es ih =>
    refine ih (fun n x hmem => hleft n x (List.mem_cons_of_mem e hmem)) ?_
    by_cases hentered : ∃ n, e = .entered .propertyList n
    · obtain ⟨n, rfl⟩ := hentered
      exact .inl rfl
    · have hsame : e.list? c.listOpen = some c.listOpen := by
        unfold Event.list?
        split
        · exact absurd ⟨_, rfl⟩ hentered
        · exact absurd List.mem_cons_self (hleft _ _)
        · rfl
      rcases h with h | ⟨n, hn⟩
      · exact .inl ((listOpen_step hsame).trans h)
      · rcases List.mem_cons.mp hn with hn | hn
        · exact absurd ⟨n, hn.symm⟩ hentered
        · exact .inr ⟨n, hn⟩

end Collector

namespace Place

variable {o : Options} {n : Nat} {ch : Char} {p q : Place} {es : List Event} {e : ParseError}

def inList (p : Place) : Bool :=
  decide (p.outer = some .propertyList)

/-- If the move leads to a place, then its events open and close the list as the places tell. -/
def Lists (p : Place) (move : Move) : Prop :=
  ∀ q, move.2 = .ok q → move.1.foldlM Event.list? p.inList = some q.inList

theorem Lists.of_ok (h : es.foldlM Event.list? p.inList = some q.inList) :
    Lists p (es, .ok q) := by
  rintro q ⟨⟩
  exact h

theorem Lists.of_error {e : ParseError} : Lists p (es, .error e) :=
  fun q hq => by cases hq

theorem Lists.after {r : Place} {x : Event} {move : Move} (h : Lists r move)
    (hx : x.list? p.inList = some r.inList) : Lists p (after [x] move) := by
  intro q hq
  rw [Place.after, List.foldlM_append, List.foldlM_cons, hx]
  exact h q hq

theorem lists_endSegment {f : Opening} : Lists (.text (.node f) .none) (endSegment n ch) := by
  unfold endSegment
  repeat' split
  all_goals exact .of_ok rfl

theorem lists_endList {f : Opening} : Lists (.list f) (endList n ')') :=
  .of_ok rfl

theorem lists_endProperty {f g : Opening} (h : ch = ',' ∨ ch = ')') :
    Lists (.text (.property f g) .none) (endProperty n ch f) := by
  unfold endProperty
  split
  · exact .of_ok rfl
  · rename_i hcomma
    obtain rfl := h.resolve_left hcomma
    exact lists_endList.after rfl

theorem lists_onMark {w : Owner} (h : ch ∈ w.marks) :
    Lists (.text w .none) (onMark n ch w) := by
  cases w with
  | node f =>
    simp only [onMark]
    repeat' split
    · exact .of_ok rfl
    · exact .of_error
    · exact lists_endSegment
  | nodeName f g =>
    simp only [onMark]
    repeat' split
    · exact .of_error
    · exact .of_error
    · exact (lists_endSegment (f := f)).after rfl
  | property f g =>
    simp only [Owner.marks, List.mem_cons, List.not_mem_nil, or_false] at h
    simp only [onMark]
    split
    · exact .of_ok rfl
    · rename_i hne
      exact lists_endProperty (h.resolve_left hne)
  | propertyValue f g v =>
    simp only [onMark]
    split
    · rename_i b hb
      cases b <;> exact .of_ok rfl
    · rename_i hnone
      have hend : ch = ',' ∨ ch = ')' := by
        simp only [Owner.marks, List.mem_cons, List.not_mem_nil, or_false] at h
        rcases h with h | h | rfl | rfl | rfl
        · exact .inl h
        · exact .inr h
        all_goals cases hnone
      exact (lists_endProperty (g := g) hend).after rfl

theorem lists_onText {w : Owner} : Lists (.text w .none) (onText o n ch w) := by
  unfold onText
  repeat' split
  · exact .of_ok rfl
  · cases w <;> exact .of_ok rfl
  · cases w <;> exact .of_ok rfl
  · rename_i hmark
    exact lists_onMark hmark
  · cases w <;> exact .of_ok rfl

/-- The list is open in the events while it is the outermost state of the place. -/
theorem lists_next : Lists p (p.next o n ch) := by
  cases p with
  | start =>
    simp only [next]
    repeat' split
    · exact .of_ok rfl
    · exact .of_ok rfl
    · exact .of_ok rfl
    · exact .of_ok rfl
    · exact .of_ok rfl
    · exact (lists_onText (w := .node _)).after rfl
  | text w s =>
    cases s with
    | none => exact lists_onText
    | escape x => cases w <;> exact .of_ok rfl
    | quotes x =>
      simp only [next, onQuoted]
      repeat' split
      all_goals cases w <;> exact .of_ok rfl
    | quotesEscape x y => cases w <;> exact .of_ok rfl
  | literal f g v b x depth =>
    simp only [next, onLiteral]
    repeat' split
    all_goals cases b <;> exact .of_ok rfl
  | operation f =>
    simp only [next, onOperation, endOperation]
    repeat' split
    all_goals first | exact .of_ok rfl | exact .of_error
  | list f =>
    simp only [next]
    repeat' split
    · exact .of_ok rfl
    · rename_i hch
      exact hch ▸ lists_endList
    · exact (lists_onText (w := .property f _)).after rfl
  | requestEnd f =>
    simp only [next]
    repeat' split
    all_goals first | exact .of_ok rfl | exact .of_error
  | redirect f =>
    simp only [next, onTarget]
    repeat' split
    all_goals first | exact .of_ok rfl | exact .of_error
  | target f g =>
    simp only [next, onTarget]
    split <;> exact .of_ok rfl

theorem lists_feed {cs : List Char} (h : p.feed o n cs = (es, .ok q)) :
    es.foldlM Event.list? p.inList = some q.inList := by
  refine feed_invariant (fun _ es q => es.foldlM Event.list? p.inList = some q.inList) n
    (fun hq hnext => ?_) [] [] rfl h
  rw [List.foldlM_append, hq]
  exact (hnext ▸ lists_next : Lists _ (_, .ok _)) _ rfl

theorem lists_finish : (p.finish o n).1.foldlM Event.list? p.inList = some p.inList := by
  cases p with
  | text w s => cases w <;> cases s <;> rfl
  | literal f g v b x depth =>
    simp only [finish]
    split <;> cases b <;> rfl
  | target f g =>
    simp only [finish]
    split <;> rfl
  | _ => rfl

theorem inList_of_finish (h : (p.finish o n).2 = none) : p.inList = false := by
  cases p with
  | text w s => cases w <;> cases s <;> first | rfl | cases h
  | literal f g v b x depth =>
    simp only [finish] at h
    split at h <;> cases h
  | list f => cases h
  | _ => rfl

/-- An accepted line closes the list that it opens. -/
theorem lists_read {cs : List Char} (h : (p.read o n cs).2 = none) :
    (p.read o n cs).1.foldlM Event.list? p.inList = some false := by
  obtain ⟨es, q, hfeed, hread⟩ := exists_feed_of_read h
  rw [hread] at h ⊢
  rw [delay, List.foldlM_append, lists_feed hfeed, ← inList_of_finish h]
  exact lists_finish

/-- The ways in which a place ends in an error, after the events `es`. -/
inductive Stuck (p : Place) : List Event → ParseError → Prop
  /-- The innermost state does not go on. -/
  | here {e : ParseError} (hstate : p.labels.head? = some e.state) : Stuck p [] e
  /-- The first character of the line opens a node that does not take it. -/
  | first {e : ParseError} (n : Nat) (hp : p = .start) (hstate : e.state = .node) :
    Stuck p [.entered .node n] e
  /-- The operation is left without a name. -/
  | nameless {e : ParseError} (f : Opening) (n : Nat) (x : Option Char) (hp : p = .operation f)
    (hf : f.forwarded = 0) (hstate : e.state = .operationName) :
    Stuck p [.leaving .operationName n x] e
  /-- The line ends in the list. -/
  | unclosed {es : List Event} {e : ParseError} (hp : p.outer = some .propertyList)
    (hes : es.foldlM Event.list? true = some true) (hstate : e.state = .propertyList) :
    Stuck p es e

theorem endSegment_ne_error : (endSegment n ch).2 ≠ .error e := by
  unfold endSegment
  repeat' split
  all_goals simp

theorem endProperty_ne_error {f : Opening} : (endProperty n ch f).2 ≠ .error e := by
  unfold endProperty
  split <;> simp [Place.after, endList]

/-- Of the texts only those of an address can meet a character that they do not take. -/
theorem onMark_error {w : Owner} (h : (onMark n ch w).2 = .error e) :
    (onMark n ch w).1 = [] ∧ w.label = e.state ∧ (text w .none).inList = false := by
  cases w with
  | node f =>
    simp only [onMark] at h ⊢
    split at h
    · cases h
    split at h
    · rename_i hne hparen
      rw [if_neg hne, if_pos hparen]
      cases h
      exact ⟨rfl, rfl, rfl⟩
    · exact absurd h endSegment_ne_error
  | nodeName f g =>
    simp only [onMark] at h ⊢
    split at h
    · rename_i heq
      rw [if_pos heq]
      cases h
      exact ⟨rfl, rfl, rfl⟩
    split at h
    · rename_i hne hparen
      rw [if_neg hne, if_pos hparen]
      cases h
      exact ⟨rfl, rfl, rfl⟩
    · exact absurd h endSegment_ne_error
  | property f g =>
    simp only [onMark] at h
    split at h
    · cases h
    · exact absurd h endProperty_ne_error
  | propertyValue f g v =>
    simp only [onMark] at h
    split at h
    · cases h
    · exact absurd h endProperty_ne_error

theorem onText_error {w : Owner} (h : (onText o n ch w).2 = .error e) :
    (onText o n ch w).1 = [] ∧ w.label = e.state ∧ (text w .none).inList = false := by
  by_cases hmark : ch ∈ w.marks
  · rw [onText_of_mark hmark] at h ⊢
    exact onMark_error h
  · unfold onText at h
    repeat' split at h
    all_goals cases h

theorem stuck_next (h : p.next o n ch = (es, .error e)) : Stuck p es e := by
  cases p with
  | start =>
    simp only [next] at h
    repeat' split at h
    all_goals try cases h
    obtain ⟨rfl, herror⟩ := Prod.mk.inj h
    obtain ⟨hes, hstate, -⟩ := onText_error herror
    rw [hes]
    exact .first n rfl hstate.symm
  | text w s =>
    cases s with
    | none =>
      replace h : onText o n ch w = (es, .error e) := h
      obtain ⟨hes, hstate, -⟩ := onText_error (congrArg Prod.snd h)
      rw [h] at hes
      obtain rfl : es = [] := hes
      refine .here ?_
      rw [← hstate]
      cases w <;> rfl
    | escape x => cases h
    | quotes x =>
      simp only [next, onQuoted] at h
      repeat' split at h
      all_goals cases h
    | quotesEscape x y => cases h
  | literal f g v b x depth =>
    simp only [next, onLiteral] at h
    repeat' split at h
    all_goals cases h
  | operation f =>
    simp only [next, onOperation, endOperation] at h
    repeat' split at h
    all_goals cases h
    · rename_i hf
      exact .nameless f n _ rfl hf rfl
    · rename_i hf
      exact .nameless f n _ rfl hf rfl
    · exact .here rfl
  | list f =>
    simp only [next] at h
    repeat' split at h
    · cases h
    · cases h
    · obtain ⟨-, herror⟩ := Prod.mk.inj h
      obtain ⟨-, -, hlist⟩ := onText_error herror
      cases hlist
  | requestEnd f =>
    simp only [next] at h
    repeat' split at h
    all_goals cases h
    exact .here rfl
  | redirect f =>
    simp only [next, onTarget] at h
    repeat' split at h
    all_goals cases h
    exact .here rfl
  | target f g =>
    simp only [next, onTarget] at h
    split at h <;> cases h

theorem stuck_finish (h : (p.finish o n).2 = some e) : Stuck p (p.finish o n).1 e := by
  cases p with
  | start => cases h
  | text w s =>
    cases s with
    | none =>
      cases w with
      | node f => cases h
      | nodeName f g => cases h
      | property f g =>
        cases h
        exact .unclosed rfl rfl rfl
      | propertyValue f g v =>
        cases h
        exact .unclosed rfl rfl rfl
    | escape x =>
      cases h
      exact .here rfl
    | quotes x =>
      cases h
      exact .here rfl
    | quotesEscape x y =>
      cases h
      exact .here rfl
  | literal f g v b x depth =>
    simp only [finish] at h ⊢
    split at h <;> cases h
    · rename_i hlenient
      rw [if_pos hlenient]
      exact .unclosed (by cases b <;> rfl) (by cases b <;> rfl) rfl
    · rename_i hstrict
      rw [if_neg hstrict]
      exact .here rfl
  | operation f =>
    simp only [finish] at h ⊢
    split at h
    · rename_i hf
      cases h
      exact .nameless f n none rfl hf rfl
    · cases h
  | list f =>
    cases h
    exact .unclosed rfl rfl rfl
  | requestEnd f => cases h
  | redirect f =>
    cases h
    exact .here rfl
  | target f g =>
    simp only [finish] at h ⊢
    split at h
    · rename_i hg
      cases h
      rw [if_pos hg]
      exact .here rfl
    · cases h

/-- A line that fails goes to a place that ends in the error. -/
theorem stuck_read {cs : List Char} (h : p.read o n cs = (es, some e)) :
    ∃ before after es₁ q es₂, cs = before ++ after ∧ p.feed o n before = (es₁, .ok q)
      ∧ es = es₁ ++ es₂ ∧ Stuck q es₂ e := by
  induction cs generalizing n p es with
  | nil =>
    refine ⟨[], [], [], p, es, rfl, rfl, rfl, ?_⟩
    have hfinish : p.finish o n = (es, some e) := by simpa [read, feed, delay] using h
    have hstuck := stuck_finish (o := o) (n := n) (congrArg Prod.snd hfinish)
    rwa [hfinish] at hstuck
  | cons ch cs ih =>
    rcases hnext : p.next o n ch with ⟨es₁, e' | q⟩
    · rw [read_cons_of_error hnext] at h
      cases h
      exact ⟨[], ch :: cs, [], p, es, rfl, rfl, rfl, stuck_next hnext⟩
    · rw [read_cons hnext] at h
      obtain ⟨rfl, herror⟩ := Prod.mk.inj h
      obtain ⟨before, rest, es₂, r, es₃, rfl, hfeed, hes, hstuck⟩ := ih (Prod.ext rfl herror)
      refine ⟨ch :: before, rest, es₁ ++ es₂, r, es₃, rfl, ?_, ?_, hstuck⟩
      · simp only [feed, hnext, hfeed, Place.after]
      · rw [List.append_assoc, ← hes]

/-- What an error is about tells which part of the line is being read. -/
theorem mem_lastStates_iff {l : Label} (hl : p.labels.head? = some l) :
    l ∈ Request.lastStates ↔ p.outer ∈ [some .requestEnd, some .outputRedirect] := by
  have hp : p ≠ .start := by
    rintro rfl
    cases hl
  have hstacks : ∀ st ∈ Request.openStacks, ∀ l ∈ st.getLast?, l ∈ Request.lastStates ↔
      st.head? ∈ [some .requestEnd, some .outputRedirect] := by decide
  have hmem := hstacks _ (mem_openStacks hp) l (by rw [List.getLast?_reverse, hl]; rfl)
  rwa [List.head?_reverse] at hmem

theorem Holds.operation_eq_none {r : Request} {d : Draft} (h : p.Holds r d)
    (hp : p.outer ∈ beforeList) : r.operation = none := by
  have hlist : some .propertyList ∉ beforeList := by decide
  have hend : some .requestEnd ∉ beforeList := by decide
  have hredirect : some .outputRedirect ∉ beforeList := by decide
  cases p with
  | start => exact h.2.1
  | text w s =>
    obtain ⟨hlabel, hfits⟩ := h
    cases w with
    | node f =>
      obtain ⟨type, rfl⟩ := Draft.isOf_of_label hlabel
      exact hfits.1
    | nodeName f g =>
      obtain ⟨type, name, rfl⟩ := Draft.isOf_of_label hlabel
      exact hfits.1
    | property f g => cases s <;> exact absurd hp hlist
    | propertyValue f g v => cases s <;> exact absurd hp hlist
  | literal f g v b x depth => cases b <;> exact absurd hp hlist
  | operation f =>
    obtain ⟨hlabel, hfits, -⟩ := h
    obtain ⟨name, rfl⟩ := Draft.isOf_of_label hlabel
    exact hfits.1
  | list f => exact absurd hp hlist
  | requestEnd f => exact absurd hp hend
  | redirect f => exact absurd hp hredirect
  | target f g => exact absurd hp hredirect

/-- What a collector knows about the place that it has come to. -/
structure Aware (o : Options) (p : Place) (c : Collector) : Prop extends Sound o p c where
  nameless : p.outer ∈ beforeList → c.request.operation = none
  listOpen : c.listOpen = p.inList

theorem aware_feed {cs : List Char} (h : start.feed o n cs = (es, .ok p)) :
    Aware o p (es.foldl Collector.step { options := o }) := by
  have hstart : Sound o .start { options := o } :=
    ⟨rfl, rfl, rfl, rfl, by simp [Request.WellFormed]⟩
  refine ⟨sound_feed hstart h, fun hp => ?_, ?_⟩
  · obtain ⟨r, d, hkept, hholds⟩ : p.Keeps o ([] ++ es) := keeps_feed (keeps_start o) h
    have hrequest : (es.foldl Collector.follow { options := o }).request = r := by
      rw [List.nil_append] at hkept
      rw [hkept.fold]
      cases d <;> rfl
    rw [Collector.foldl_follow_start] at hrequest
    exact (congrArg Request.operation hrequest).trans (hholds.operation_eq_none hp)
  · exact Collector.listOpen_foldl_step (lists_feed h)

end Place

theorem Request.WellFormed.operation_ne {r : Request} (h : r.WellFormed) :
    r.operation ≠ some "" :=
  fun hop => (h.2.1 _ hop).1.1 rfl

namespace Place

variable {o : Options} {n : Nat} {p : Place} {es : List Event} {e : ParseError} {c : Collector}

theorem Aware.isComplete_finish (h : Aware o p c) (hok : (p.finish o n).2 = none) :
    ((p.finish o n).1.foldl Collector.step c).isComplete = true ↔
      ((p.finish o n).1.foldl Collector.step c).request.operation ≠ none := by
  have hclosed : ((p.finish o n).1.foldl Collector.step c).listOpen = false := by
    rw [← inList_of_finish hok]
    exact Collector.listOpen_foldl_step (h.listOpen ▸ lists_finish)
  exact Collector.isComplete_of_closed hclosed (wellFormed_finish h.toSound hok).operation_ne

theorem Aware.isComplete_of_last (h : Aware o p c)
    (hp : p.outer ∈ [some .requestEnd, some .outputRedirect]) :
    c.isComplete = true ↔ c.request.operation ≠ none := by
  have hclosed : c.listOpen = false := by
    have hne : ∀ part ∈ [some Label.requestEnd, some .outputRedirect],
        part ≠ some .propertyList := by decide
    exact h.listOpen.trans (decide_eq_false (hne _ hp))
  exact Collector.isComplete_of_closed hclosed h.request.operation_ne

/-- An error leaves a complete request if it is about what comes after the properties. -/
theorem Aware.isComplete_stuck (h : Aware o p c) (hstuck : Stuck p es e) :
    (es.foldl Collector.step c).isComplete = true ↔
      (es.foldl Collector.step c).request.operation ≠ none ∧ e.state ∈ Request.lastStates := by
  have hnone : ∀ {d : Collector}, d.request.operation = none →
      (d.isComplete = true ↔ d.request.operation ≠ none ∧ e.state ∈ Request.lastStates) := by
    intro d hd
    simp [Collector.isComplete, hd]
  have hopen : ∀ {d : Collector}, d.listOpen = true → e.state ∉ Request.lastStates →
      (d.isComplete = true ↔ d.request.operation ≠ none ∧ e.state ∈ Request.lastStates) := by
    intro d hd he
    simp [Collector.isComplete_eq, hd, he]
  cases hstuck with
  | here hstate =>
    have hlast := mem_lastStates_iff hstate
    have hp : p ≠ .start := by
      rintro rfl
      cases hstate
    obtain ⟨part, hpart, hout⟩ := exists_outer_of_ne_start hp
    rw [List.foldl_nil]
    by_cases hbefore : p.outer ∈ beforeList
    · exact hnone (h.nameless hbefore)
    by_cases hin : p.outer = some .propertyList
    · refine hopen (h.listOpen.trans (decide_eq_true hin)) ?_
      rw [hlast, hin]
      decide
    · have hlate : ∀ l ∈ parts, some l ∉ beforeList → some l ≠ some .propertyList →
          some l ∈ [some .requestEnd, some .outputRedirect] := by decide
      rw [hout] at hbefore hin
      have hmem := hlate part hpart hbefore hin
      rw [← hout] at hmem
      rw [h.isComplete_of_last hmem]
      exact ⟨fun hop => ⟨hop, hlast.mpr hmem⟩, And.left⟩
  | first k hp hstate => exact hnone (h.nameless (hp ▸ List.mem_cons_self))
  | nameless f k x hp hf hstate =>
    subst hp
    have hempty : c.operation.isEmpty = true := by
      have hdraft : Drafted Grammar.OperationChar o f.forwarded c.operation := h.operation
      rw [Field.isEmpty, hdraft.empty hf]
      rfl
    have hbefore : some .operationName ∈ beforeList := by decide
    refine hnone ?_
    change (c.leave .operationName x).request.operation = none
    rw [Collector.leave_operationName, hempty, if_pos rfl]
    exact h.nameless hbefore
  | unclosed hp hes hstate =>
    have hin : c.listOpen = true := h.listOpen.trans (decide_eq_true hp)
    refine hopen (Collector.listOpen_foldl_step (hin ▸ hes)) ?_
    rw [hstate]
    decide

end Place

/-- Whether or not a line parses, the collector takes its request to be complete just if it names an
operation and the line is accepted or fails in a state that comes after the properties. So a line
that fails with its property list entered and not left is incomplete. -/
theorem completeness_is_exact (o : Options) (line : String) :
    let report := Collector.read o line { options := o }
    (report.consumer.isComplete = true ↔ report.consumer.request.operation ≠ none
      ∧ (report.outcome = .ok () ∨ ∃ stop e, report.outcome = .error stop
        ∧ stop.error? = some e ∧ e.state ∈ Request.lastStates))
    ∧ ((∃ n, .entered .propertyList n ∈ (Request.run o Sink.record line #[]).consumer.toList) →
      (∀ n x, .leaving .propertyList n x
        ∉ (Request.run o Sink.record line #[]).consumer.toList) →
      report.consumer.isComplete = false) := by
  intro report
  have hreport : report = _ := Collector.read_eq o line { options := o }
  rw [(Request.run_record o line).1, hreport]
  refine ⟨?_, fun hentered hleft => ?_⟩
  · rcases hread : Place.read o 0 line.toList .start with ⟨es, _ | e⟩
    · obtain ⟨es₁, p, hfeed, heq⟩ := Place.exists_feed_of_read (congrArg Prod.snd hread)
      rw [heq] at hread
      obtain ⟨rfl, hok⟩ := Prod.mk.inj hread
      have hcomplete := (Place.aware_feed hfeed).isComplete_finish hok
      dsimp only
      rw [List.foldl_append, hcomplete]
      simp [Place.verdict]
    · obtain ⟨before, after, es₁, p, es₂, -, hfeed, rfl, hstuck⟩ := Place.stuck_read hread
      have hcomplete := (Place.aware_feed hfeed).isComplete_stuck hstuck
      dsimp only
      rw [List.foldl_append, hcomplete]
      refine and_congr_right fun _ => ⟨fun hlast => ?_, ?_⟩
      · obtain ⟨stop, hverdict, hstop⟩ := Place.exists_stop_of_error o e
        exact .inr ⟨stop, e, hverdict, hstop, hlast⟩
      · rintro (hok | ⟨stop, e', hout, he', hlast⟩)
        · cases hok
        · have he := Stop.error?_of_verdict hout he'
          cases he
          exact hlast
  · have hopen := Collector.listOpen_of_entered (c := { options := o }) hleft (.inr hentered)
    rw [Collector.isComplete_eq, hopen]
    simp

/-- A redirection without its target leaves a complete request, an open list does not. -/
theorem complete_before_redirect_target :
    (Collector.read {} ":op(a) >" { options := {} }).consumer.isComplete = true
      ∧ (Collector.read {} ":op(a" { options := {} }).consumer.isComplete = false := by
  have hop : (Collector.read {} ":op(a) >" { options := {} }).consumer.request.operation
      ≠ none := by decide +kernel
  have hout : (Collector.read {} ":op(a) >" { options := {} }).outcome
      = .error (.failed ⟨.emptyRedirectTarget, 8, .outputRedirect, none⟩) := by decide +kernel
  have hevents : (Request.run {} Sink.record ":op(a" #[]).consumer.toList
      = [.entered .operationName 0, .character .operationName 'o' 1,
        .character .operationName 'p' 2, .leaving .operationName 3 (some '('),
        .entered .propertyList 3, .entered .property 4, .character .property 'a' 4,
        .leaving .property 5 none] := by decide +kernel
  refine ⟨(completeness_is_exact {} ":op(a) >").1.mpr ⟨hop, .inr ⟨_, _, hout, rfl, by decide⟩⟩,
    (completeness_is_exact {} ":op(a").2 ⟨3, ?_⟩ fun n x => ?_⟩
  · rw [hevents]
    decide
  · rw [hevents]
    simp

end RequestLine
