import RequestLine.Proofs.Blame
import RequestLine.Proofs.Conservation
import RequestLine.Proofs.Policies

/-!
# Lenient brackets

Whether a bracket literal may stay open is asked at the end of a line only, and only if one is open
there (`Place.finish_lenient`). A literal is part of a value, and what was read from its opener on
is all text of that value (`Place.openedIn_feed`). So the option accepts no line: it moves
the error of such a line from the literal to the list around it, and the property that was being
read becomes the last one of the list (`lenient_brackets_accept_no_line`).
-/

namespace RequestLine

/-- The events by which the state `l` passes on the characters `cs`, the first of which stands at
`n`. -/
def passes (l : Label) : Nat → List Char → List Event
  | _, [] => []
  | n, ch :: cs => .character l ch n :: passes l (n + ch.utf8Size) cs

theorem passes_append_singleton (l : Label) (n : Nat) (cs : List Char) (ch : Char) :
    passes l n (cs ++ [ch]) = passes l n cs ++ [Event.character l ch (n + Text.byteSize cs)] := by
  induction cs generalizing n with
  | nil => rfl
  | cons c cs ih =>
    rw [List.cons_append, passes, ih, passes, List.cons_append, Text.byteSize_cons, Nat.add_assoc]

namespace Place

variable {o : Options} {n : Nat} {ch : Char} {p : Place} {es : List Event}

/-- The move leads into a literal. -/
def leadsInside : Move → Bool
  | (_, .ok (.literal ..)) => true
  | _ => false

theorem leadsInside_after (es : List Event) (move : Move) :
    leadsInside (after es move) = leadsInside move := by
  rcases move with ⟨_, _ | (_ | _ | _ | _ | _ | _ | _ | _)⟩ <;> rfl

theorem leadsInside_endSegment (n : Nat) (ch : Char) : leadsInside (endSegment n ch) = false := by
  unfold endSegment
  dsimp only
  split_ifs <;> rfl

theorem leadsInside_endProperty (n : Nat) (ch : Char) (f : Opening) :
    leadsInside (endProperty n ch f) = false := by
  unfold endProperty
  dsimp only
  split_ifs <;> rfl

/-- Only a value has marks that open a literal. -/
theorem leadsInside_onMark {w : Owner} (hw : w.label ≠ .propertyValue) :
    leadsInside (onMark n ch w) = false := by
  cases w with
  | node f =>
    simp only [onMark]
    split_ifs
    · rfl
    · rfl
    · exact leadsInside_endSegment n ch
  | nodeName f g =>
    simp only [onMark]
    split_ifs
    · rfl
    · rfl
    · rw [leadsInside_after, leadsInside_endSegment]
  | property f g =>
    simp only [onMark]
    split_ifs
    · rfl
    · exact leadsInside_endProperty n ch f
  | propertyValue f g v => exact absurd rfl hw

theorem leadsInside_onText {w : Owner} (hw : w.label ≠ .propertyValue) :
    leadsInside (onText o n ch w) = false := by
  unfold onText
  split_ifs
  · rfl
  · rfl
  · rfl
  · exact leadsInside_onMark hw
  · rfl

theorem leadsInside_onTarget (o : Options) (n : Nat) (ch : Char) (f g : Opening) :
    leadsInside (onTarget o n ch f g) = false := by
  unfold onTarget
  split_ifs <;> rfl

theorem leadsInside_onOperation (o : Options) (n : Nat) (ch : Char) (f : Opening) :
    leadsInside (onOperation o n ch f) = false := by
  unfold onOperation endOperation
  dsimp only
  split_ifs <;> rfl

/-- From everywhere else than a value and the literal itself no character leads into a literal. -/
theorem leadsInside_next (htext : ∀ f g v, p ≠ .text (.propertyValue f g v) .none)
    (hliteral : ∀ f g v b k depth, p ≠ .literal f g v b k depth) :
    leadsInside (p.next o n ch) = false := by
  cases p with
  | start =>
    simp only [next]
    split_ifs
    · rfl
    · rfl
    · rfl
    · rfl
    · rfl
    · rw [leadsInside_after]
      exact leadsInside_onText (by simp [Owner.label])
  | text w s =>
    cases s with
    | none =>
      refine leadsInside_onText fun hw => ?_
      cases w with
      | propertyValue f g v => exact htext f g v rfl
      | _ => cases hw
    | escape e => rfl
    | quotes q =>
      simp only [next, onQuoted]
      split_ifs <;> rfl
    | quotesEscape q e => rfl
  | literal f g v b k depth => exact absurd rfl (hliteral f g v b k depth)
  | operation f => exact leadsInside_onOperation o n ch f
  | list f =>
    simp only [next]
    split_ifs
    · rfl
    · rfl
    · rw [leadsInside_after]
      exact leadsInside_onText (by simp [Owner.label])
  | requestEnd f =>
    simp only [next]
    split_ifs <;> rfl
  | redirect f =>
    simp only [next]
    split_ifs
    · rfl
    · rfl
    · rw [leadsInside_after, leadsInside_onTarget]
  | target f g => exact leadsInside_onTarget o n ch f g

variable {f g v k : Opening} {b : Bracket} {depth : Nat}

/-- A literal is entered with its opener, from the value, or it goes on. -/
theorem literal_of_next (h : p.next o n ch = (es, .ok (.literal f g v b k depth))) :
    (p = .text (.propertyValue f g v) .none ∧ ch = b.opener
      ∧ k.offset = n ∧ k.opener = ch ∧ es = [.entered b.label n, .character b.label ch n])
    ∨ ∃ k' depth', p = .literal f g v b k' depth'
      ∧ k.offset = k'.offset ∧ k.opener = k'.opener ∧ es = [.character b.label ch n] := by
  by_cases htext : ∃ f g v, p = .text (.propertyValue f g v) .none
  · obtain ⟨f', g', v', rfl⟩ := htext
    simp only [next, onText] at h
    split at h
    · cases h
    split at h
    · cases h
    split at h
    · cases h
    split at h
    · simp only [onMark] at h
      split at h
      · rename_i b' hb
        cases h
        exact .inl ⟨rfl, Bracket.ofOpener?_eq_some_iff.mp hb, rfl, rfl, rfl⟩
      · have hinside := (leadsInside_after [.leaving .propertyValue n (some ch)] _).trans
          (leadsInside_endProperty n ch f')
        rw [h] at hinside
        cases hinside
    · cases h
  by_cases hliteral : ∃ f g v b k depth, p = .literal f g v b k depth
  · obtain ⟨f', g', v', b', k', depth', rfl⟩ := hliteral
    simp only [next, onLiteral] at h
    split at h
    · cases h
      exact .inr ⟨k', depth', rfl, rfl, rfl, rfl⟩
    split at h
    · split at h
      · cases h
        exact .inr ⟨k', depth', rfl, rfl, rfl, rfl⟩
      · cases h
    · cases h
      exact .inr ⟨k', _, rfl, rfl, rfl, rfl⟩
  · have hinside : leadsInside (p.next o n ch) = false :=
      leadsInside_next (fun f g v hp => htext ⟨f, g, v, hp⟩)
        fun f g v b k depth hp => hliteral ⟨f, g, v, b, k, depth, hp⟩
    rw [h] at hinside
    cases hinside

/-- What was read inside of a literal is a line up to a value, the opener, and characters that were
all passed on. -/
def OpenedIn (o : Options) (cs : List Char) (es : List Event) : Place → Prop
  | literal f g v b k _ => ∃ before body opened, cs = before ++ b.opener :: body
    ∧ k.offset = Text.byteSize before ∧ k.opener = b.opener
    ∧ feed o 0 before .start = (opened, .ok (.text (.propertyValue f g v) .none))
    ∧ es = opened ++ .entered b.label (Text.byteSize before)
      :: passes b.label (Text.byteSize before) (b.opener :: body)
  | _ => True

theorem openedIn_next {cs : List Char} {es' : List Event} {q : Place}
    (hfeed : feed o 0 cs .start = (es, .ok p)) (h : p.OpenedIn o cs es)
    (hnext : p.next o (Text.byteSize cs) ch = (es', .ok q)) :
    q.OpenedIn o (cs ++ [ch]) (es ++ es') := by
  cases q with
  | literal f g v b k depth =>
    rcases literal_of_next hnext with
      ⟨rfl, rfl, hoffset, hopener, rfl⟩ | ⟨k', depth', rfl, hoffset, hopener, rfl⟩
    · exact ⟨cs, [], es, rfl, hoffset, hopener, hfeed, rfl⟩
    · obtain ⟨before, body, opened, rfl, hk, hkopener, hbefore, rfl⟩ := h
      refine ⟨before, body ++ [ch], opened, by simp, hoffset.trans hk, hopener.trans hkopener,
        hbefore, ?_⟩
      rw [← List.cons_append, passes_append_singleton, List.append_assoc, List.cons_append,
        Text.byteSize_append]
  | _ => trivial

theorem openedIn_feed {cs : List Char} (h : feed o 0 cs .start = (es, .ok p)) :
    p.OpenedIn o cs es := by
  refine (feed_invariant (fun cs es p => feed o 0 cs .start = (es, .ok p) ∧ p.OpenedIn o cs es) 0
    (fun {cs es p ch es' q} hp hnext => ?_) [] [] ⟨rfl, trivial⟩ h).2
  have hfeed : feed o 0 (cs ++ [ch]) .start = (es ++ es', .ok q) := by
    rw [feed_append hp.1]
    simp only [feed, hnext, after, List.append_nil]
  rw [Nat.zero_add] at hnext
  exact ⟨hfeed, openedIn_next hp.1 hp.2 hnext⟩

end Place

/-- Characters at the end that are all to be kept stay. -/
theorem Text.trimLoose_append_kept {isBlank : Char → Bool} (ps : List (Char × Bool)) (ch : Char)
    (cs : List Char) :
    trimLoose isBlank (ps ++ (ch :: cs).map fun c => (c, true))
      = (ps.dropWhile (isLoose isBlank)).map Prod.fst ++ ch :: cs := by
  have hkept : ∀ cs : List Char, (cs.map fun c => (c, true)).rdropWhile (isLoose isBlank)
      = cs.map fun c => (c, true) := by
    intro cs
    rw [List.rdropWhile_eq_self_iff]
    intro hne
    have hmem := List.getLast_mem hne
    obtain ⟨c, -, hc⟩ := List.mem_map.mp hmem
    simp [← hc, isLoose]
  rw [trimLoose, List.map_cons, dropWhile_isLoose_append rfl, rdropWhile_isLoose_append rfl, hkept]
  simp [Function.comp_def]

section Collected

variable {o : Options} {es : List Event} {r : Request} {name value : List (Char × Bool)}
  {sep n : Nat} {b : Bracket}

theorem Bracket.isLiteral_label (b : Bracket) : b.label.isLiteral = true := by
  cases b <;> rfl

/-- What a literal passes on goes to the end of the value. -/
theorem Kept.pass
    (h : Kept o es [b.label, .propertyValue, .property, .propertyList] r
      (.property name (some (sep, value)))) (cs : List Char) :
    Kept o (es ++ passes b.label n cs) [b.label, .propertyValue, .property, .propertyList] r
      (.property name (some (sep, value ++ cs.map fun ch => (ch, true)))) := by
  induction cs generalizing es n value with
  | nil =>
    rw [passes, List.append_nil, List.map_nil, List.append_nil]
    exact h
  | cons ch cs ih =>
    have hgiven := h.give (l := b.label) ch n (by cases b <;> decide) (by cases b <;> decide)
      (by simp [Draft.label]) (by cases b <;> rfl)
    rw [b.isLiteral_label] at hgiven
    have hrest := ih (n := n + ch.utf8Size) hgiven
    rw [List.append_assoc, List.append_assoc] at hrest
    exact hrest

/-- The end of the line, as the states of a property are closed there from a literal on. -/
theorem Kept.close
    (h : Kept o es [b.label, .propertyValue, .property, .propertyList] r
      (.property name (some (sep, value))))
    (hd : (Draft.property name (some (sep, value))).Fits r) :
    Kept o (es ++ [Event.leaving b.label n none, .leaving .propertyValue n none,
        .leaving .property n none]) [.propertyList]
      ((Draft.property name (some (sep, value))).into o r) .nothing := by
  have hliteral := h.leave_literal b.isLiteral_label n none
  have hvalue : Kept o
      (es ++ [Event.leaving b.label n none] ++ [Event.leaving .propertyValue n none])
      [.property, .propertyList] r (.property name (some (sep, value))) :=
    hliteral.quiet rfl rfl rfl rfl
  have hproperty := Kept.finish (d := .property name (some (sep, value))) hvalue hd
    (by simp [Draft.part]) n none
  rwa [List.append_assoc, List.append_assoc] at hproperty

/-- The property that is read when the line ends in a literal, as the collector has it before and
after its states are closed. -/
theorem Place.collected_of_literal {cs : List Char} {f g v k : Opening} {depth : Nat}
    (h : feed o 0 cs .start = (es, .ok (.literal f g v b k depth))) (n : Nat) :
    ∃ (before rest : List Char) (opened : List Event) (ps : List Property) (p : Property)
      (text : String), cs = before ++ b.opener :: rest ∧ k.offset = Text.byteSize before
      ∧ k.opener = b.opener
      ∧ es = opened ++ .entered b.label (Text.byteSize before)
        :: passes b.label (Text.byteSize before) (b.opener :: rest)
      ∧ (es.foldl Collector.step { options := o }).request.properties = some ps
      ∧ (es.foldl Collector.step { options := o }).pendingProperty = some p
      ∧ ((es ++ [Event.leaving b.label n none, .leaving .propertyValue n none,
          .leaving .property n none]).foldl Collector.step { options := o }).request.properties
        = some (ps ++ [p])
      ∧ p.value = some (text ++ String.ofList (b.opener :: rest)) := by
  obtain ⟨before, rest, opened, hcs, hoffset, hopener, hbefore, hes⟩ := openedIn_feed h
  obtain ⟨r, d, hkept, hlabel, hfits⟩ : (Place.text (.propertyValue f g v) .none).Keeps o opened :=
    keeps_feed (keeps_start o) hbefore
  obtain ⟨name, ⟨sep, value⟩, rfl⟩ := Draft.isOf_of_label hlabel
  obtain ⟨ps, hps⟩ := Option.ne_none_iff_exists'.mp hfits.1
  have hpassed := (hkept.enter_literal b.isLiteral_label (Text.byteSize before)).pass
    (n := Text.byteSize before) (b.opener :: rest)
  rw [List.append_assoc, List.singleton_append, ← hes] at hpassed
  have hclosed := hpassed.close (n := n) hfits
  have hplain : ∀ es' : List Event, (es'.foldl Collector.step { options := o }).plain
      = es'.foldl Collector.follow { options := o } := fun es' => Collector.plain_foldl_step _ es'
  have hstrict := (hplain es).trans hpassed.fold
  have hlenient := (hplain _).trans hclosed.fold
  let p : Property :=
    { name := Draft.text o name
      value := some (Draft.text o (value ++ (b.opener :: rest).map fun ch => (ch, true)))
      valueSeparator := some sep }
  refine ⟨before, rest, opened, ps, p,
    String.ofList ((value.dropWhile (Text.isLoose o.isBlank)).map Prod.fst), hcs, hoffset, hopener,
    hes, ?_, ?_, ?_, ?_⟩
  · exact (congrArg (fun c => c.request.properties) hstrict).trans hps
  · refine (congrArg Collector.pendingProperty hstrict).trans ?_
    rw [Draft.pendingProperty_onto]
    simp [p]
  · refine (congrArg (fun c => c.request.properties) hlenient).trans ?_
    change ((Draft.property name (some (sep, _))).into o r).properties = _
    simp [Draft.into, hps, p]
  · simp only [p, Draft.text, Text.trimLoose_append_kept, String.ofList_append]

end Collected

namespace Place

variable (o : Options) (lenient : Bool)

theorem next_lenient (n : Nat) (ch : Char) (p : Place) :
    p.next { o with lenientBrackets := lenient } n ch = p.next o n ch := by
  cases p with
  | text w s => cases s <;> rfl
  | _ => rfl

/-- What the characters of a line lead to does not depend on the option. -/
theorem feed_lenient (n : Nat) (cs : List Char) (p : Place) :
    p.feed { o with lenientBrackets := lenient } n cs = p.feed o n cs := by
  induction cs generalizing n p with
  | nil => rfl
  | cons ch cs ih => simp only [feed, next_lenient, ih]

/-- Nor does what the end of the line leads to, unless it is inside a literal. -/
theorem finish_lenient {p : Place} (hp : ∀ f g v b k depth, p ≠ .literal f g v b k depth)
    (n : Nat) : p.finish { o with lenientBrackets := lenient } n = p.finish o n := by
  cases p with
  | text w s => cases s <;> rfl
  | literal f g v b k depth => exact absurd rfl (hp f g v b k depth)
  | _ => rfl

/-- A line is read alike with and without the option, or it ends inside a literal. -/
theorem read_lenient_cases (n : Nat) (cs : List Char) (p : Place) :
    p.read { o with lenientBrackets := true } n cs = p.read { o with lenientBrackets := false } n cs
    ∨ ∃ es f g v b k depth, p.feed o n cs = (es, .ok (.literal f g v b k depth))
      ∧ p.read { o with lenientBrackets := false } n cs = (es, some
        { cause := .unmatchedBracket k.opener, offset := k.offset, state := b.label
          found := none })
      ∧ p.read { o with lenientBrackets := true } n cs
        = (es ++ [Event.leaving b.label (n + Text.byteSize cs) none,
            .leaving .propertyValue (n + Text.byteSize cs) none,
            .leaving .property (n + Text.byteSize cs) none], some
          { cause := .missingCloseParen, offset := f.offset, state := .propertyList
            found := none }) := by
  simp only [read, feed_lenient]
  rcases hfeed : p.feed o n cs with ⟨es, e | q⟩
  · exact .inl rfl
  by_cases hq : ∃ f g v b k depth, q = .literal f g v b k depth
  · obtain ⟨f, g, v, b, k, depth, rfl⟩ := hq
    refine .inr ⟨es, f, g, v, b, k, depth, rfl, ?_, ?_⟩
    · simp [finish, cutOff, delay]
    · simp [finish, finishList, delay]
  · have hout : ∀ f g v b k depth, q ≠ .literal f g v b k depth :=
      fun f g v b k depth h => hq ⟨f, g, v, b, k, depth, h⟩
    left
    simp only [finish_lenient o _ hout]

end Place

/-- What the collector holds after a line it has from the events of the line. -/
theorem Collector.read_consumer (o : Options) (line : String) (c : Collector) :
    (Collector.read o line c).consumer
      = (Request.run o Sink.record line #[]).consumer.toList.foldl Collector.step c := by
  rw [Collector.read, Collector.sink, Request.run_ofStep]
  rfl

/-- The collector does not ask for the option. -/
theorem Collector.foldl_step_lenient (o : Options) (lenient : Bool) (es : List Event) :
    es.foldl Collector.step { options := { o with lenientBrackets := lenient } }
      = (es.foldl Collector.step { options := o }).under { o with lenientBrackets := lenient } := by
  have hover : Collector.Over { o with lenientBrackets := lenient } (fun _ => True)
      { options := o } := Collector.over_start fun _ _ => rfl
  exact hover.foldl_step_under fun _ _ _ _ => trivial

/-- No line is accepted because its brackets are read leniently. Either the option changes neither
the events of the line nor its outcome, or the run without it fails at the opener of a bracket
literal, and the run with it closes the literal, its value and its property and fails at the
parenthesis of the list, the only one that was entered. In the second case the property that was
open becomes the last one of the list, and the end of its value is the line from the opener on as it
is written. -/
theorem lenient_brackets_accept_no_line (o : Options) (line : String) :
    let strict : Options := { o with lenientBrackets := false }
    let lenient : Options := { o with lenientBrackets := true }
    let stop : ParseError → Stop := fun e => if o.fatalErrors then .fatal e else .failed e
    let run : Options → Report (Array Event) := fun o => Request.run o Sink.record line #[]
    let collected : Options → Collector := fun o =>
      (Collector.read o line { options := o }).consumer
    ((run lenient).outcome = .ok () ↔ (run strict).outcome = .ok ())
    ∧ ((run lenient).consumer = (run strict).consumer
      ∧ (run lenient).outcome = (run strict).outcome
    ∨ ∃ (before rest : List Char) (b : Bracket) (opened : List Event) (list : Nat)
        (ps : List Property) (p : Property) (text : String),
      line.toList = before ++ b.opener :: rest
      ∧ (run strict).consumer.toList = opened ++ .entered b.label (Text.byteSize before)
        :: passes b.label (Text.byteSize before) (b.opener :: rest)
      ∧ (run strict).outcome = .error (stop
        { cause := .unmatchedBracket b.opener, offset := Text.byteSize before, state := b.label
          found := none })
      ∧ (run lenient).consumer.toList = (run strict).consumer.toList
        ++ [.leaving b.label line.utf8ByteSize none, .leaving .propertyValue line.utf8ByteSize none,
          .leaving .property line.utf8ByteSize none]
      ∧ (run lenient).outcome = .error (stop
        { cause := .missingCloseParen, offset := list, state := .propertyList, found := none })
      ∧ Text.charAt? list line.toList = some '('
      ∧ (∀ n, .entered .propertyList n ∈ (run strict).consumer ↔ n = list)
      ∧ (collected strict).request.properties = some ps
      ∧ (collected strict).pendingProperty = some p
      ∧ (collected lenient).request.properties = some (ps ++ [p])
      ∧ p.value = some (text ++ String.ofList (b.opener :: rest))) := by
  intro strict lenient stop run collected
  obtain ⟨hstrictEvents, hstrictOutcome⟩ := Request.run_record strict line
  obtain ⟨hlenientEvents, hlenientOutcome⟩ := Request.run_record lenient line
  rcases Place.read_lenient_cases strict 0 line.toList .start with
    heq | ⟨es, f, g, v, b, k, depth, hfeed, hstrict, hlenient⟩
  · replace heq : Place.start.read lenient 0 line.toList = Place.start.read strict 0 line.toList :=
      heq
    rw [heq] at hlenientEvents hlenientOutcome
    have houtcome : (run lenient).outcome = (run strict).outcome :=
      hlenientOutcome.trans hstrictOutcome.symm
    exact ⟨by rw [houtcome],
      .inl ⟨Array.toList_inj.mp (hlenientEvents.trans hstrictEvents.symm), houtcome⟩⟩
  replace hstrict : Place.start.read strict 0 line.toList = _ := hstrict
  replace hlenient : Place.start.read lenient 0 line.toList = _ := hlenient
  rw [Nat.zero_add, Text.byteSize_toList] at hlenient
  obtain ⟨before, rest, opened, ps, p, text, hline, hoffset, hopener, hes, hps, hp, hlast,
    hvalue⟩ := Place.collected_of_literal hfeed line.utf8ByteSize
  have hstart : Place.start.Grounded lenient [] [] := trivial
  obtain ⟨hparen, honly, -, -⟩ := Place.points_read hstart
    (fun _ _ => Place.entered_list_unique) (congrArg Prod.snd hlenient)
  replace honly : ∀ n, .entered .propertyList n ∈ (Place.start.read lenient 0 line.toList).1
      ↔ n = f.offset := honly
  rw [hstrict] at hstrictEvents hstrictOutcome
  rw [hlenient] at hlenientEvents hlenientOutcome honly
  have hlenientFails : (run lenient).outcome ≠ .ok () := by
    intro h
    cases hlenientOutcome.symm.trans h
  have hstrictFails : (run strict).outcome ≠ .ok () := by
    intro h
    cases hstrictOutcome.symm.trans h
  refine ⟨iff_of_false hlenientFails hstrictFails, .inr ⟨before, rest, b, opened, f.offset, ps, p,
    text, hline, ?_, ?_, ?_, hlenientOutcome, hparen, fun n => ?_, ?_, ?_, ?_, hvalue⟩⟩
  · exact hstrictEvents.trans hes
  · rw [← hoffset, ← hopener]
    exact hstrictOutcome
  · simp only [run, hstrictEvents]
    exact hlenientEvents
  · rw [← honly n, ← Array.mem_toList_iff]
    simp [run, hstrictEvents]
  · simp only [collected, Collector.read_consumer, hstrictEvents]
    exact hps
  · simp only [collected, Collector.read_consumer, hstrictEvents]
    exact hp
  · simp only [collected, Collector.read_consumer, hlenientEvents]
    have hfold := Collector.foldl_step_lenient strict true
      (es ++ [.leaving b.label line.utf8ByteSize none,
        .leaving .propertyValue line.utf8ByteSize none, .leaving .property line.utf8ByteSize none])
    exact (congrArg (fun c => c.request.properties) hfold).trans hlast

example :
    let strict := Request.run {} Sink.record "a(b=c[d)" #[]
    let lenient := Request.run { lenientBrackets := true } Sink.record "a(b=c[d)" #[]
    strict.outcome = .error (.failed ⟨.unmatchedBracket '[', 5, .brackets, none⟩)
      ∧ lenient.outcome = .error (.failed ⟨.missingCloseParen, 1, .propertyList, none⟩)
      ∧ lenient.consumer.toList = strict.consumer.toList
        ++ [Event.leaving .brackets 8 none, .leaving .propertyValue 8 none,
          .leaving .property 8 none] := by decide +kernel

end RequestLine
