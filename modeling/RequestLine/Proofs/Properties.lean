import RequestLine.Proofs.Listing

/-!
# The meaning of a property list

An accepted line has the properties that are written in its list (`properties_of_list`). What
remains to be shown is where the list begins: up to its opening parenthesis a line stays at places
before the list (`Place.exists_list_of_entered`), so no property is pending there.
-/

namespace RequestLine

section Frame

variable {c : Collector} {es : List Event}

/-- Without a list there are no properties. -/
theorem Collector.properties_of_no_list (hc : c.request.properties = none)
    (h : ∀ e ∈ es, e.entersList = false) : (es.foldl follow c).request.properties = none := by
  induction es generalizing c with
  | nil => exact hc
  | cons e es ih =>
    refine ih ?_ fun x hx => h x (List.mem_cons_of_mem e hx)
    rcases c.properties_follow (h e List.mem_cons_self) with hfollow | ⟨-, hfollow⟩
    · rw [hfollow, hc]
    · rw [hfollow, hc]
      rfl

theorem mem_of_textOwner {st : List Label} {l : Label} {keep : Bool}
    (h : textOwner st = some (l, keep)) : l ∈ st := by
  induction st generalizing keep with
  | nil => cases h
  | cons x st ih =>
    have hliteral : (textOwner st).map (fun owner => (owner.1, true)) = some (l, keep) →
        l ∈ x :: st := by
      intro hmap
      obtain ⟨⟨l', k⟩, howner, heq⟩ := Option.map_eq_some_iff.mp hmap
      obtain ⟨rfl, -⟩ := Prod.mk.inj heq
      exact List.mem_cons_of_mem x (ih howner)
    cases x <;> first | exact hliteral h | (cases h; done) | (cases h; exact List.mem_cons_self)

theorem Collector.take_stack (c : Collector) (l : Label) (ch : Char) :
    (c.take l ch).stack = c.stack := by
  rw [take_eq]
  split
  · exact (c.seen_calm ch).2
  · split
    · exact (c.seen_calm ch).2
    · rw [give_stack, (c.seen_calm ch).2]

theorem Collector.leave_stack (c : Collector) (l : Label) (x : Option Char) :
    (c.leave l x).stack = c.stack.tail := by
  cases l
  case node => rw [leave_node]; split <;> rfl
  case operationName => rw [leave_operationName]; split <;> rfl
  case property => rw [leave_property]; split <;> rfl
  all_goals rfl

/-- An event opens no state but its own. -/
theorem Collector.mem_stack_step {e : Event} {l : Label} (h : l ∈ (c.step e).stack) :
    l ∈ c.stack ∨ l = e.state := by
  cases e with
  | entered k n =>
    change l ∈ (c.enter k n).stack at h
    rw [(c.enter_calm k n).2] at h
    exact (List.mem_cons.mp h).symm
  | character k ch n =>
    change l ∈ (c.take k ch).stack at h
    rw [take_stack] at h
    exact .inl h
  | leaving k n x =>
    change l ∈ (c.leave k x).stack at h
    rw [leave_stack] at h
    exact .inl (List.mem_of_mem_tail h)

/-- Outside of all properties nothing changes the pending one. -/
theorem Collector.property_step {e : Event} (hc : .property ∉ c.stack ∧ .propertyValue ∉ c.stack)
    (he : e.state ≠ .property ∧ e.state ≠ .propertyValue) : (c.step e).property = c.property := by
  cases e with
  | entered l n => cases l <;> first | rfl | exact absurd rfl he.2
  | character l ch n =>
    change (c.take l ch).property = _
    have hseen : (c.seen ch).property = c.property := by
      unfold seen
      split <;> rfl
    rw [take_eq]
    split
    · exact hseen
    · split
      · exact hseen
      · rename_i owner keep howner
        rw [(c.seen_calm ch).2] at howner
        have hmem := mem_of_textOwner howner
        have hgive : ((c.seen ch).give owner ch keep).property = (c.seen ch).property := by
          cases owner
          case property => exact absurd hmem hc.1
          case propertyValue => exact absurd hmem hc.2
          all_goals rfl
        rw [hgive, hseen]
  | leaving l n x =>
    change (c.leave l x).property = _
    cases l
    case property => exact absurd rfl he.1
    case node => rw [leave_node]; split <;> rfl
    case operationName => rw [leave_operationName]; split <;> rfl
    all_goals rfl

theorem Collector.property_foldl_step (hc : .property ∉ c.stack ∧ .propertyValue ∉ c.stack)
    (h : ∀ e ∈ es, e.state ≠ .property ∧ e.state ≠ .propertyValue) :
    (es.foldl step c).property = c.property := by
  induction es generalizing c with
  | nil => rfl
  | cons e es ih =>
    have he := h e List.mem_cons_self
    have hstep : .property ∉ (c.step e).stack ∧ .propertyValue ∉ (c.step e).stack := by
      refine ⟨fun hmem => ?_, fun hmem => ?_⟩
      · rcases mem_stack_step hmem with hmem | hstate
        · exact hc.1 hmem
        · exact he.1 hstate.symm
      · rcases mem_stack_step hmem with hmem | hstate
        · exact hc.2 hmem
        · exact he.2 hstate.symm
    rw [List.foldl_cons, ih hstep fun x hx => h x (List.mem_cons_of_mem e hx),
      property_step hc he]

end Frame

namespace Place

variable {o : Options} {n : Nat} {ch : Char} {p q : Place}

/-- The outermost states before a list, if any. -/
def beforeList : List (Option Label) :=
  [none, some .node, some .operationName]

/-- If the move enters a list, then at an opening parenthesis, and it ends there. -/
def EntersList (p : Place) (n : Nat) (ch : Char) (move : Move) : Prop :=
  ∀ m, .entered .propertyList m ∈ move.1 → p.outer ∈ beforeList ∧ ch = '(' ∧ m = n
    ∧ ∃ es, move = (es ++ [.entered .propertyList n], .ok (.list { offset := n, opener := ch }))

theorem EntersList.of_none {move : Move} (h : move.1.any Event.entersList = false) :
    EntersList p n ch move := by
  intro m hm
  exact absurd rfl (List.any_eq_false.mp h _ hm)

theorem EntersList.after {x : Event} {move : Move} (h : EntersList p n ch move)
    (hx : ∀ m, x ≠ .entered .propertyList m) : EntersList p n ch (after [x] move) := by
  intro m hm
  rcases List.mem_append.mp hm with hm | hm
  · exact absurd (List.mem_singleton.mp hm).symm (hx m)
  · obtain ⟨hp, hch, hmn, es, rfl⟩ := h m hm
    exact ⟨hp, hch, hmn, x :: es, rfl⟩

theorem entersList_endSegment (hp : p.outer = some .node) :
    EntersList p n ch (endSegment n ch) := by
  unfold endSegment
  repeat' split
  · exact .of_none rfl
  · exact .of_none rfl
  · rename_i hch
    intro m hm
    have hm : m = n := by simpa using hm
    exact ⟨by simp [hp, beforeList], hch, hm, [.leaving .node n (some ch)], rfl⟩
  · exact .of_none rfl

theorem entersList_onMark {w : Owner} : EntersList (.text w .none) n ch (onMark n ch w) := by
  cases w with
  | node f =>
    simp only [onMark]
    repeat' split
    · exact .of_none rfl
    · exact .of_none rfl
    · exact entersList_endSegment rfl
  | nodeName f g =>
    simp only [onMark]
    repeat' split
    · exact .of_none rfl
    · exact .of_none rfl
    · exact (entersList_endSegment rfl).after (by simp)
  | property f g =>
    simp only [onMark, endProperty]
    repeat' split
    all_goals exact .of_none rfl
  | propertyValue f g v =>
    simp only [onMark, endProperty]
    repeat' split
    · rename_i b hb
      cases b <;> exact .of_none rfl
    all_goals exact .of_none rfl

theorem entersList_onText {w : Owner} : EntersList (.text w .none) n ch (onText o n ch w) := by
  unfold onText
  repeat' split
  · exact .of_none rfl
  · exact .of_none rfl
  · exact .of_none rfl
  · exact entersList_onMark
  · cases w <;> exact .of_none rfl

theorem entersList_next : EntersList p n ch (p.next o n ch) := by
  cases p with
  | start =>
    simp only [next]
    repeat' split
    · exact .of_none rfl
    · exact .of_none rfl
    · exact .of_none rfl
    · rename_i hch
      intro m hm
      have hm : m = n := by simpa using hm
      exact ⟨List.mem_of_elem_eq_true rfl, hch, hm, [], rfl⟩
    · exact .of_none rfl
    · intro m hm
      have hnode : EntersList (.text (.node { offset := n, opener := ch }) .none) n ch
          (Place.after [.entered .node n] (onText o n ch (.node { offset := n, opener := ch }))) :=
        entersList_onText.after (by simp)
      exact ⟨List.mem_of_elem_eq_true rfl, (hnode m hm).2⟩
  | text w s =>
    cases s with
    | none => exact entersList_onText
    | escape e => exact .of_none rfl
    | quotes x =>
      simp only [next, onQuoted]
      repeat' split
      all_goals exact .of_none rfl
    | quotesEscape x e => exact .of_none rfl
  | literal f g v b x depth =>
    simp only [next, onLiteral]
    repeat' split
    all_goals cases b <;> exact .of_none rfl
  | operation f =>
    simp only [next, onOperation, endOperation]
    repeat' split
    · exact .of_none rfl
    · exact .of_none rfl
    · rename_i hch _
      intro m hm
      have hm : m = n := by simpa using hm
      exact ⟨List.mem_of_elem_eq_true rfl, hch, hm, [.leaving .operationName n (some ch)], rfl⟩
    all_goals exact .of_none rfl
  | list f =>
    simp only [next]
    repeat' split
    · exact .of_none rfl
    · exact .of_none rfl
    · exact (entersList_onText (w := .property f _)).after (by simp)
  | requestEnd f =>
    simp only [next]
    repeat' split
    all_goals exact .of_none rfl
  | redirect f =>
    simp only [next, onTarget]
    repeat' split
    all_goals exact .of_none rfl
  | target f g =>
    simp only [next, onTarget]
    split <;> exact .of_none rfl

/-- Before a place that comes before a list there was none. -/
theorem beforeList_of_next {es : List Event} (h : p.next o n ch = (es, .ok q))
    (hq : q.outer ∈ beforeList) : p.outer ∈ beforeList := by
  rcases eq_or_ne p .start with rfl | hne
  · exact List.mem_of_elem_eq_true rfl
  have horderly : Orderly p (es, .ok q) := h ▸ orderly_next
  obtain ⟨part, hmem, hp⟩ := exists_outer_of_ne_start hne
  have hback : ∀ part ∈ parts, ∀ l ∈ Request.nextParts (some part),
      some l ∈ beforeList → some part ∈ beforeList := by decide
  cases horderly with
  | stays _ hpart _ => rwa [hpart] at hq
  | opens _ l hp' hl _ hpart _ =>
    rw [hpart] at hq
    obtain rfl := hp.symm.trans hp'
    exact hp ▸ hback part hmem l hl hq

/-- On the way to the list there is no property. -/
theorem state_ne_of_beforeList (hp : p.outer ∈ beforeList) :
    ∀ e ∈ (p.next o n ch).1, e.state ≠ .property ∧ e.state ≠ .propertyValue := by
  intro e he
  have hwithin : Within p.outer (p.next o n ch).1 := within_next
  have hnear : ∀ part ∈ beforeList, .property ∉ Request.near part
      ∧ .propertyValue ∉ Request.near part := by decide
  exact ⟨hwithin.state_ne (hnear _ hp).1 he, hwithin.state_ne (hnear _ hp).2 he⟩

/-- A line that enters a list goes through places before it up to the opening parenthesis. -/
theorem exists_list_of_entered {cs : List Char} {m : Nat}
    (h : .entered .propertyList m ∈ (p.read o n cs).1) :
    p.outer ∈ beforeList ∧ ∃ before after es, cs = before ++ '(' :: after
      ∧ m = n + Text.byteSize before
      ∧ p.feed o n (before ++ ['(']) = (es ++ [.entered .propertyList m],
        .ok (.list { offset := m, opener := '(' }))
      ∧ ∀ e ∈ es, e.state ≠ .property ∧ e.state ≠ .propertyValue := by
  induction cs generalizing n p with
  | nil =>
    obtain ⟨ls, hls⟩ := finish_leavings (o := o) (n := n) p
    simp [read, feed, delay, hls] at h
  | cons ch cs ih =>
    have hstep : EntersList p n ch (p.next o n ch) := entersList_next
    rcases hnext : p.next o n ch with ⟨es₁, e | q⟩ <;> rw [hnext] at hstep
    · rw [read_cons_of_error hnext] at h
      obtain ⟨-, -, -, es, hes⟩ := hstep m h
      cases hes
    rw [read_cons hnext] at h
    rcases List.mem_append.mp h with h | h
    · obtain ⟨hp, rfl, rfl, es, hes⟩ := hstep m h
      obtain ⟨rfl, hq⟩ := Prod.mk.inj hes
      have hstates : ∀ e ∈ (p.next o m '(').1, _ := state_ne_of_beforeList hp
      rw [hnext] at hstates
      refine ⟨hp, [], cs, es, rfl, rfl, ?_, fun e he => hstates e (List.mem_append_left _ he)⟩
      simp [feed, hnext, after, Except.ok.inj hq]
    · obtain ⟨hq, before, rest, es, rfl, hm, hfeed, hes⟩ := ih h
      have hp := beforeList_of_next hnext hq
      have hstates : ∀ e ∈ (p.next o n ch).1, _ := state_ne_of_beforeList hp
      rw [hnext] at hstates
      refine ⟨hp, ch :: before, rest, es₁ ++ es, rfl, ?_, ?_, fun e he => ?_⟩
      · rw [hm, Text.byteSize_cons, Nat.add_assoc]
      · simp only [List.cons_append, feed, hnext, hfeed, after, List.append_assoc]
      · rcases List.mem_append.mp he with he | he
        · exact hstates e he
        · exact hes e he

end Place

/-- The collector at the opening parenthesis of the list. -/
theorem Place.list_of_feed {o : Options} {cs : List Char} {es : List Event} {f : Opening} {m : Nat}
    {c : Collector}
    (h : Place.start.feed o 0 cs = (es ++ [Event.entered .propertyList m], .ok (.list f)))
    (hes : ∀ e ∈ es, e.state ≠ .property ∧ e.state ≠ .propertyValue)
    (hc : c = (es ++ [Event.entered .propertyList m]).foldl Collector.follow { options := o }) :
    c.placed (.list f) = c ∧ c.options = o ∧ c.request.properties = some []
      ∧ c.property = ({} : PendingProperty) := by
  have hstart : Place.Sound o .start { options := o } :=
    ⟨rfl, rfl, rfl, rfl, by simp [Request.WellFormed]⟩
  have hsound := Place.sound_feed hstart h
  have hproperty : (es.foldl Collector.step { options := o }).property = {} :=
    Collector.property_foldl_step (by simp) hes
  rw [Collector.foldl_follow_start] at hc
  subst hc
  refine ⟨?_, hsound.options, ?_, ?_⟩
  · rw [Collector.placed, ← hsound.stack]
    rfl
  · rw [List.foldl_append]
    rfl
  · rw [List.foldl_append]
    exact hproperty

/-- An accepted line has the properties that are written in its list. The list is what stands
between the parenthesis at which it is entered and the first one that closes. -/
theorem properties_of_list {o : Options} {line : String} {r : Request}
    (h : Request.parse o line = .ok r) :
    (∀ m, .entered .propertyList m ∈ (Request.run o Sink.record line #[]).consumer.toList →
      ∃ before after body close rest, line.toList = before ++ '(' :: after
        ∧ m = Text.byteSize before
        ∧ glyphs o (m + 1) .propertyName .bare after = body ++ close :: rest
        ∧ (∀ g ∈ body, g.separates ')' = false) ∧ close.separates ')' = true
        ∧ .leaving .propertyList close.offset (some ')')
          ∈ (Request.run o Sink.record line #[]).consumer.toList
        ∧ r.properties = some (propertiesOf o body))
    ∧ ((∀ m, .entered .propertyList m ∉ (Request.run o Sink.record line #[]).consumer.toList) →
      r.properties = none) := by
  obtain ⟨hok, rfl⟩ := Request.parse_eq_ok_iff_follow.mp h
  rw [(Request.run_record o line).1]
  refine ⟨fun m hm => ?_, fun hno => ?_⟩
  · obtain ⟨-, before, after, es, hline, hm, hfeed, hes⟩ := Place.exists_list_of_entered hm
    obtain ⟨hplaced, hoptions, hproperties, hproperty⟩ := Place.list_of_feed hfeed hes rfl
    have hsize : 0 + Text.byteSize (before ++ ['(']) = m + 1 := by
      rw [hm, Text.byteSize_append]
      rfl
    have hread := Place.read_append hfeed after
    rw [List.append_assoc, List.singleton_append, ← hline, hsize] at hread
    rw [hread] at hok ⊢
    obtain ⟨body, close, rest, hcloses⟩ :=
      Place.closes_list hplaced hoptions hproperties hproperty after hok
    refine ⟨before, after, body, close, rest, hline, by rw [hm, Nat.zero_add], hcloses.glyphs,
      hcloses.inside, hcloses.separates, List.mem_append_right _ hcloses.leaves, ?_⟩
    rw [Place.delay, List.foldl_append]
    exact hcloses.properties
  · refine Collector.properties_of_no_list rfl fun e he => ?_
    unfold Event.entersList
    split
    · exact absurd he (hno _)
    · rfl

/-- A quoted comma, a bracket literal with a quote in it, an escaped parenthesis, a bare name, an
empty item and an empty value. -/
theorem properties_of_awkward_list :
    let line := ":op( \"a,b\" = [x,\"(] \\) ,c,,=)"
    let r : Request :=
      { operation := some "op"
        properties := some [⟨"a,b", some "[x,\"(] )", some 11⟩, ⟨"c", none, none⟩,
          ⟨"", some "", some 27⟩] }
    Request.parse {} line = .ok r
      ∧ ∃ before after body close rest, line.toList = before ++ '(' :: after
        ∧ 3 = Text.byteSize before
        ∧ glyphs {} 4 .propertyName .bare after = body ++ close :: rest
        ∧ (∀ g ∈ body, g.separates ')' = false) ∧ close.separates ')' = true
        ∧ .leaving .propertyList close.offset (some ')')
          ∈ (Request.run {} Sink.record line #[]).consumer.toList
        ∧ r.properties = some (propertiesOf {} body) := by
  intro line r
  have hparse : Request.parse {} line = .ok r := by decide +kernel
  exact ⟨hparse, (properties_of_list hparse).1 3 (by decide +kernel)⟩

end RequestLine
