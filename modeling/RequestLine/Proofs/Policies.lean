import RequestLine.Proofs.Causality
import RequestLine.Proofs.Fields
import RequestLine.Proofs.Parts

/-!
# Where the options matter

The rule on backslashes is asked for by one action, and in the tables of request lines that action
stands for a backslash in five states alone. Run without escapes, a machine passes on each backslash
that it meets there, so as long as none is passed on the machine with escapes goes along with it
(`Request.alongside_escapes`). Everywhere else a backslash is a character like any other
(`Place.passes_backslash`).

Which characters are blank is asked at the beginning of a line, at every character and, by the
collector, at the end of every text. All of that is the same for a line on whose characters the two
classes of blanks agree (`Machine.alongside_blanks`, `Collector.Over.foldl_step_under`).
-/

namespace RequestLine

variable {ρ σ : Type}

mutual

/-- The action asks for the escape rule, alone or in a sequence. -/
def Action.escapes : Action ρ → Bool
  | .escape _ => true
  | .sequence as => anyEscapes as
  | _ => false

def Action.anyEscapes : List (Action ρ) → Bool
  | [] => false
  | a :: as => a.escapes || anyEscapes as

end

theorem Action.escapes_of_mem {as : List (Action ρ)} (h : anyEscapes as = false) {a : Action ρ}
    (ha : a ∈ as) : a.escapes = false := by
  induction as with
  | nil => cases ha
  | cons b as ih =>
    rw [anyEscapes, Bool.or_eq_false_iff] at h
    rcases List.mem_cons.mp ha with rfl | ha
    · exact h.1
    · exact ih h.2 ha

namespace Request

/-- The states in which a backslash can be an escape. -/
def escapeStates : List Label :=
  [.node, .nodeName, .property, .propertyValue, .quotes]

theorem entries_escapes (l : Label) : ∀ x ∈ (state l).entries,
    x.2.escapes = false ∨ x = ('\\', .escape .escape) ∧ l ∈ escapeStates := by
  cases l <;> simp [state, literal, goTo, escapeStates, Action.escapes, Action.anyEscapes]

/-- In the tables of request lines the rule is asked for at a backslash only, and in few states. -/
theorem actionFor_escapes (l : Label) (ch : Char) :
    ((state l).actionFor ch).escapes = false
      ∨ (state l).actionFor ch = .escape .escape ∧ ch = '\\' ∧ l ∈ escapeStates := by
  unfold State.actionFor
  rcases hlookup : (state l).entries.lookup ch with _ | a
  · left
    cases l <;> rfl
  · obtain ⟨before, after, hentries, -⟩ := List.lookup_eq_some_iff.mp hlookup
    have hmem : (ch, a) ∈ (state l).entries := by
      rw [hentries]
      exact List.mem_append_right before List.mem_cons_self
    rcases entries_escapes l _ hmem with hquiet | ⟨hx, hl⟩
    · exact .inl hquiet
    · cases hx
      exact .inr ⟨rfl, rfl, hl⟩

theorem moments_escape (l : Label) : (state l).onEnter.escapes = false
    ∧ (state l).onLeave.escapes = false ∧ (state l).onReturn.escapes = false
    ∧ (state l).onEnd.escapes = false := by
  cases l <;> exact ⟨rfl, rfl, rfl, rfl⟩

end Request

/-- A backslash is passed on in a state in which it can be an escape. -/
def Event.isUnescaped : Event → Bool
  | .character l ch _ => ch = '\\' && l ∈ Request.escapeStates
  | _ => false

/-- Whatever takes an event, and however it takes it, has it in its log. -/
theorem Machine.mem_log_report {m : Machine ρ σ} {log : σ → List Event} (hlog : m.sink.Logs log)
    (e : Event) (c : Config ρ σ) : e ∈ log (Run.final (m.report e c)).consumer := by
  have hnew := hlog e c.consumer
  unfold report
  split <;> rename_i hs <;> rw [hs] at hnew <;> simp [Run.final, hnew]

/-- A machine that reads no escapes passes on every backslash that would be one. -/
theorem Request.alongside_escapes (o : Options) {S : Sink σ} {log : σ → List Event}
    (hlog : S.Logs log) :
    (Request.machine { o with escapeRule := .verbatim } S).Alongside
      { o with escapeRule := .backslash } (fun _ => True)
      (fun s => ∃ e ∈ log s, e.isUnescaped = true) (fun a => a.escapes = false) where
  isBlank _ := rfl
  lenientBrackets := rfl
  sink e s h := by
    obtain ⟨e', he', hescape⟩ := h
    have hmem : e' ∈ log s ++ [e] := List.mem_append_left [e] he'
    rw [← hlog e s] at hmem
    exact ⟨e', hmem, hescape⟩
  escape h := by cases h
  sequence h a ha := Action.escapes_of_mem h ha
  onEnter l := (Request.moments_escape l).1
  onLeave l := (Request.moments_escape l).2.1
  onReturn l := (Request.moments_escape l).2.2.1
  onEnd l := (Request.moments_escape l).2.2.2
  actionFor {c ch} _ hcursor := by
    let m := Request.machine { o with escapeRule := .verbatim } S
    rcases Request.actionFor_escapes (m.current c) ch with hquiet | ⟨haction, rfl, hl⟩
    · exact .inl hquiet
    · refine .inr fun self => ⟨.character (m.label c) '\\' c.offset, ?_, ?_⟩
      · have hforward : m.perform self (.escape .escape) c
            = m.report (.character (m.label c) '\\' c.offset)
              (c.mapTop fun top => { top with forwarded := top.forwarded + 1 }) := by
          change m.forward c = _
          simp only [Machine.forward, Run.bind_apply, Run.get_apply, hcursor, Run.set_apply]
        rw [show (m.state (m.current c)).actionFor '\\' = _ from haction, hforward]
        exact Machine.mem_log_report hlog _ _
      · have hlabel : m.label c = m.current c := Request.label_state _
        simpa [Event.isUnescaped, hlabel] using hl

/-- Where the options agree on what is blank, they may differ in the class that they take it
from. -/
theorem Machine.alongside_blanks (m : Machine ρ σ) (wide : Bool) :
    m.Alongside { m.options with unicodeBlanks := wide }
      (fun ch => Text.isUnicodeBlank ch = Text.isPlainBlank ch) (fun _ => False)
      (fun _ => True) := by
  refine m.alongside_of_agree (fun ch h => ?_) rfl rfl
  unfold Options.isBlank
  rw [h, ite_self, ite_self]

section Fields

variable {p q : Char → Bool} {cs : List Char}

theorem Text.trimStart_congr (h : ∀ ch ∈ cs, p ch = q ch) : trimStart p cs = trimStart q cs :=
  (span_congr h).2

theorem Text.trimEnd_congr (h : ∀ ch ∈ cs, p ch = q ch) : trimEnd p cs = trimEnd q cs :=
  congrArg List.reverse (span_congr fun ch hch => h ch (List.mem_reverse.mp hch)).2

theorem Text.trim_congr (h : ∀ ch ∈ cs, p ch = q ch) : trim p cs = trim q cs := by
  unfold trim
  rw [trimStart_congr h]
  exact trimEnd_congr fun ch hch => h ch ((List.dropWhile_sublist q).subset hch)

/-- A field is trimmed alike under two classes that agree on its characters. -/
theorem Field.finish_congr {f : Field} (h : ∀ ch ∈ f.text.toList, p ch = q ch) :
    f.finish p = f.finish q := by
  have htrimmed : f.trimmed? p = f.trimmed? q := by
    unfold Field.trimmed?
    split
    · rw [Text.trim_congr h]
    · rename_i start stop _
      rcases hstop : Text.splitAtByte? stop f.text.toList with _ | ⟨upTo, after⟩
      · rfl
      rcases hstart : Text.splitAtByte? start upTo with _ | ⟨before, kept⟩
      · simp [hstart]
      obtain ⟨htext, -⟩ := Text.eq_append_of_splitAtByte? hstop
      obtain ⟨hupTo, -⟩ := Text.eq_append_of_splitAtByte? hstart
      have hbefore : ∀ ch ∈ before, p ch = q ch := fun ch hch => h ch (by simp [htext, hupTo, hch])
      have hafter : ∀ ch ∈ after, p ch = q ch := fun ch hch => h ch (by simp [htext, hch])
      simp [hstart, Text.trimStart_congr hbefore, Text.trimEnd_congr hafter]
  rw [Field.finish, Field.finish, htrimmed]

end Fields

namespace Collector

/-- The collector with other options. -/
def under (c : Collector) (o : Options) : Collector :=
  { c with options := o }

/-- The characters in the fields of the collector are in `P`, and the options `o` count the same
characters of `P` as blank. -/
structure Over (o : Options) (P : Char → Prop) (c : Collector) : Prop where
  isBlank : ∀ ch, P ch → o.isBlank ch = c.options.isBlank ch
  nodeType : ∀ ch ∈ c.nodeType.text.toList, P ch
  nodeName : ∀ f, c.nodeName = some f → ∀ ch ∈ f.text.toList, P ch
  operation : ∀ ch ∈ c.operation.text.toList, P ch
  name : ∀ ch ∈ c.property.name.text.toList, P ch
  value : ∀ f, c.property.value = some f → ∀ ch ∈ f.text.toList, P ch
  target : ∀ ch ∈ c.target.text.toList, P ch

variable {P : Char → Prop} {c : Collector} {o o' : Options} {e : Event}

theorem Over.eachField (h : c.Over o P) :
    c.EachField c.options fun f => ∀ ch ∈ f.text.toList, P ch where
  options := rfl
  nodeType := h.nodeType
  nodeName := h.nodeName
  operation := h.operation
  name := h.name
  value := h.value
  target := h.target

theorem EachField.over (h : c.EachField o' fun f => ∀ ch ∈ f.text.toList, P ch)
    (hP : ∀ ch, P ch → o.isBlank ch = o'.isBlank ch) : c.Over o P where
  isBlank := by rwa [h.options]
  nodeType := h.nodeType
  nodeName := h.nodeName
  operation := h.operation
  name := h.name
  value := h.value
  target := h.target

theorem over_start (hP : ∀ ch, P ch → o.isBlank ch = o'.isBlank ch) :
    Over o P { options := o' } :=
  (EachField.start (by simp)).over hP

/-- No character gets into a field that is not in an event. -/
theorem Over.step (h : c.Over o P) (he : ∀ l ch n, e = .character l ch n → P ch) :
    (c.step e).Over o P := by
  refine (h.eachField.step (by simp) fun l ch n heq f keep hf ch' hmem => ?_).over h.isBlank
  simp only [Field.push, String.toList_push, List.mem_append, List.mem_singleton] at hmem
  rcases hmem with hmem | rfl
  · exact hf ch' hmem
  · exact he l ch' n heq

section Under

variable (h : c.Over o P)
include h

theorem Over.textOf_under {f : Field} (hf : ∀ ch ∈ f.text.toList, P ch) :
    (c.under o).textOf f = c.textOf f :=
  Field.finish_congr fun ch hch => h.isBlank ch (hf ch hch)

theorem Over.map_textOf_under {f : Option Field}
    (hf : ∀ g, f = some g → ∀ ch ∈ g.text.toList, P ch) :
    f.map (c.under o).textOf = f.map c.textOf :=
  Option.map_congr fun g hg => h.textOf_under (hf g hg)

theorem Over.take_under (l : Label) {ch : Char} (hch : P ch) :
    (c.under o).take l ch = (c.take l ch).under o := by
  have hseen : (c.under o).seen ch = (c.seen ch).under o := by
    have hblank : (c.under o).options.isBlank ch = c.options.isBlank ch := h.isBlank ch hch
    unfold seen
    rw [hblank]
    split <;> rfl
  rw [take_eq, take_eq, hseen]
  generalize c.seen ch = d
  split
  · rfl
  · have hstack : (d.under o).stack = d.stack := rfl
    rw [hstack]
    rcases textOwner d.stack with _ | ⟨owner, keep⟩
    · rfl
    · cases owner <;> rfl

theorem Over.finishSegment_under : (c.under o).finishSegment = c.finishSegment.under o := by
  have htype := h.textOf_under h.nodeType
  have hname := h.map_textOf_under h.nodeName
  rw [finishSegment_eq, finishSegment_eq]
  exact congrArg₂ (fun (type : String) (name : Option String) =>
    { c.under o with
      nodeType := {}
      nodeName := none
      request :=
        { c.request with
          address := c.request.address
            ++ (stepOf c.nodeType.kept.isSome type name).toList } }) htype hname

theorem Over.pendingProperty_under : (c.under o).pendingProperty = c.pendingProperty := by
  have hname : (c.under o).textOf (c.under o).property.name = c.textOf c.property.name :=
    h.textOf_under h.name
  have hvalue : (c.under o).property.value.map (c.under o).textOf
      = c.property.value.map c.textOf := h.map_textOf_under h.value
  unfold pendingProperty
  rw [hname, hvalue]
  rfl

theorem Over.finishProperty_under : (c.under o).finishProperty = c.finishProperty.under o := by
  rw [finishProperty_eq, finishProperty_eq, h.pendingProperty_under]
  rfl

theorem Over.leave_under (l : Label) (x : Option Char) :
    (c.under o).leave l x = (c.leave l x).under o := by
  let d : Collector := { c with stack := c.stack.tail }
  have hd : d.Over o P := { h with }
  cases l
  case node =>
    have hdone := hd.finishSegment_under
    rw [leave_node, leave_node]
    split
    · exact congrArg (fun d : Collector => { d with separator := some .node }) hdone
    · exact hdone
  case operationName =>
    have htext : (d.under o).textOf (d.under o).operation = d.textOf d.operation :=
      hd.textOf_under h.operation
    have hoperation : (c.under o).operation = c.operation := rfl
    rw [leave_operationName, leave_operationName, hoperation]
    split
    · rfl
    · exact congrArg (fun text : String =>
        { d.under o with
          operation := {}
          request := { c.request with operation := some text } }) htext
  case property =>
    have hdone := hd.finishProperty_under
    rw [leave_property, leave_property]
    split
    · exact congrArg (fun d : Collector => { d with separator := some .property }) hdone
    · exact hdone
  case outputRedirect =>
    have htext : (d.under o).textOf (d.under o).target = d.textOf d.target :=
      hd.textOf_under h.target
    exact congrArg (fun target : String =>
      { d.under o with
        target := {}
        request := { c.request with redirect := some { mode := c.mode, target } } }) htext
  all_goals rfl

/-- Events go to the collector alike under options that agree on its characters and on theirs. -/
theorem Over.step_under (he : ∀ l ch n, e = .character l ch n → P ch) :
    (c.under o).step e = (c.step e).under o := by
  cases e with
  | entered l n => cases l <;> rfl
  | character l ch n => exact h.take_under l (he l ch n rfl)
  | leaving l n x => exact h.leave_under l x

end Under

theorem Over.foldl_step_under (h : c.Over o P) {es : List Event}
    (hes : ∀ l ch n, .character l ch n ∈ es → P ch) :
    es.foldl Collector.step (c.under o) = (es.foldl Collector.step c).under o := by
  induction es generalizing c with
  | nil => rfl
  | cons e es ih =>
    have he : ∀ l ch n, e = .character l ch n → P ch :=
      fun l ch n heq => hes l ch n (heq ▸ List.mem_cons_self)
    rw [List.foldl_cons, List.foldl_cons, h.step_under he]
    exact ih (h.step he) fun l ch n hmem => hes l ch n (List.mem_cons_of_mem e hmem)

end Collector

/-- The state that takes a backslash as text when it is met in a state where it cannot be an
escape. A redirect that has no target yet begins it there. -/
def Request.rawState? : Label → Option Label
  | .operationName => some .operationName
  | .brackets => some .brackets
  | .braces => some .braces
  | .parens => some .parens
  | .outputRedirect => some .outputTarget
  | .outputTarget => some .outputTarget
  | _ => none

namespace Place

variable {o : Options} {n : Nat} {p : Place}

/-- The events of a character are the first events of what is read from it on. -/
theorem next_prefix_read (ch : Char) (cs : List Char) :
    (p.next o n ch).1 <+: (p.read o n (ch :: cs)).1 := by
  rcases hnext : p.next o n ch with ⟨es, e | q⟩
  · rw [read_cons_of_error hnext]
  · rw [read_cons hnext]
    exact List.prefix_append es _

/-- Where a backslash cannot be an escape it is passed on, whatever the rule. -/
theorem passes_backslash {l : Label} (h : (p.labels.head?).bind Request.rawState? = some l) :
    .character l '\\' n ∈ (p.next o n '\\').1 := by
  have hblank : o.isBlank '\\' = false := o.isBlank_of_isMark (by decide)
  cases p with
  | start => cases h
  | text w s => cases s <;> cases w <;> cases h
  | literal f g v b k depth =>
    cases b <;> cases h <;>
      simp [next, onLiteral, Bracket.opener, Bracket.closer, Bracket.label]
  | operation f =>
    cases h
    simp [next, onOperation, hblank]
  | list f => cases h
  | requestEnd f => cases h
  | redirect f =>
    cases h
    simp [next, onTarget, hblank, after]
  | target f g =>
    cases h
    simp [next, onTarget, hblank]

end Place

namespace Request

variable {o o' : Options} {S : Sink σ} {line : String} {s : σ}

/-- A run without escapes that passes on no backslash which would be one goes as with escapes. -/
theorem run_of_no_unescaped {log : σ → List Event} (hlog : S.Logs log)
    (h : ∀ e ∈ log (Request.run { o with escapeRule := .verbatim } S line s).consumer,
      e.isUnescaped = false) :
    Request.run { o with escapeRule := .backslash } S line s
      = Request.run { o with escapeRule := .verbatim } S line s := by
  rcases (Request.alongside_escapes o hlog).run rfl (fun _ _ => trivial) Request.bound s with
    ⟨e, he, hescape⟩ | heq
  · rw [h e he] at hescape
    cases hescape
  · exact heq

/-- A backslash that cannot be an escape where it stands is passed on, whatever the rule. -/
theorem passes_raw_backslash {bound : Nat} {xs : List Char} {c : Config Label σ} {l : Label}
    (ys : List Char) (hfeed : (Request.machine o S).feed bound 0 xs { consumer := s } = .ok () c)
    (hraw : rawState? ((Request.machine o S).label c) = some l) :
    .character l '\\' (Text.byteSize xs)
      ∈ (Request.run o Sink.record (String.ofList (xs ++ '\\' :: ys)) #[]).consumer := by
  obtain ⟨es, p, hplace, hstack, -⟩ := Request.place_of_feed o S hfeed
  have hlabel : p.labels.head?.bind rawState? = some l := by
    have hcurrent : (Request.machine o S).label c = (Request.machine o S).current c :=
      Request.label_state _
    rw [hcurrent] at hraw
    unfold Machine.current at hraw
    rw [hstack] at hraw
    rcases hst : p.stack with _ | ⟨top, rest⟩ <;> rw [hst] at hraw
    · cases hraw
    · simpa [Place.labels, hst] using hraw
  have hmem := Place.passes_backslash (o := o) (n := Text.byteSize xs) hlabel
  rw [← Array.mem_toList_iff, (Request.run_record o _).1, String.toList_ofList,
    Place.read_append hplace, Nat.zero_add]
  exact List.mem_append_right es ((Place.next_prefix_read '\\' ys).subset hmem)

/-- The class of blanks does not matter to a line on which the two classes agree. -/
theorem run_of_no_wide_blank
    (h : ∀ ch ∈ line.toList, Text.isUnicodeBlank ch = Text.isPlainBlank ch) :
    Request.run { o with unicodeBlanks := true } S line s
      = Request.run { o with unicodeBlanks := false } S line s :=
  ((Request.machine { o with unicodeBlanks := false } S).alongside_blanks true).run rfl h
    Request.bound s |>.resolve_left id

/-- What a run behind a recording sink says, it says without that sink. -/
theorem run_of_both_record
    (h : Request.run o' (Sink.both Sink.record S) line (#[], s)
      = Request.run o (Sink.both Sink.record S) line (#[], s)) :
    Request.run o' S line s = Request.run o S line s := by
  obtain ⟨offered, htee, -⟩ := (Request.machine o S).run_both_record Request.bound line s
  obtain ⟨offered', htee', -⟩ := (Request.machine o' S).run_both_record Request.bound line s
  have hhand : (Request.run o' S line s).hand (offered'.toArray, (Request.run o' S line s).consumer)
      = (Request.run o S line s).hand (offered.toArray, (Request.run o S line s).consumer) :=
    htee'.symm.trans (h.trans htee)
  generalize Request.run o' S line s = r' at hhand ⊢
  generalize Request.run o S line s = r at hhand ⊢
  obtain ⟨outcome', consumer', notes'⟩ := r'
  obtain ⟨outcome, consumer, notes⟩ := r
  simp only [Report.hand, Report.mk.injEq, Prod.mk.injEq] at hhand
  obtain ⟨rfl, ⟨-, rfl⟩, rfl⟩ := hhand
  rfl

/-- The collector of such a line, too, is the same but for its options. -/
theorem collected_of_no_wide_blank
    (h : ∀ ch ∈ line.toList, Text.isUnicodeBlank ch = Text.isPlainBlank ch) :
    Collector.read { o with unicodeBlanks := true } line
        { options := { o with unicodeBlanks := true } }
      = (Collector.read { o with unicodeBlanks := false } line
          { options := { o with unicodeBlanks := false } }).hand
        ((Collector.read { o with unicodeBlanks := false } line
          { options := { o with unicodeBlanks := false } }).consumer.under
            { o with unicodeBlanks := true }) := by
  let wide : Options := { o with unicodeBlanks := true }
  let plain : Options := { o with unicodeBlanks := false }
  let P : Char → Prop := fun ch => Text.isUnicodeBlank ch = Text.isPlainBlank ch
  have hrun : Request.run wide Sink.record line #[] = Request.run plain Sink.record line #[] :=
    run_of_no_wide_blank h
  have hover : Collector.Over wide P { options := plain } := Collector.over_start fun ch hch => hch
  have hchars : ∀ l ch n,
      .character l ch n ∈ (Request.run plain Sink.record line #[]).consumer.toList → P ch := by
    intro l ch n hmem
    obtain ⟨es, hes, halong⟩ :=
      (Request.machine plain Sink.record).run_events Sink.record_logs Request.bound line #[]
    replace hes : (Request.run plain Sink.record line #[]).consumer.toList = es := hes
    rw [hes] at hmem
    exact h ch ((List.dropWhile_sublist _).subset (halong.among _ hmem).mem)
  have hfold := hover.foldl_step_under hchars
  have hstart : Collector.under { options := plain } wide = { options := wide } := rfl
  rw [hstart] at hfold
  change Request.run wide Collector.sink line _
    = (Request.run plain Collector.sink line _).hand
      ((Request.run plain Collector.sink line _).consumer.under wide)
  rw [Collector.sink, Request.run_ofStep, Request.run_ofStep, hrun, hfold]
  rfl

end Request

/-- The rule on backslashes matters only where an escape is read, whoever takes the events: if the
run without escapes passes on no backslash in one of the states of `Request.escapeStates`, the run
with escapes has the same events and the same report. In the states of which `Request.rawState?`
tells, a backslash is passed on as text whatever the options. The class of blanks matters only where
the line has a blank of the wide class that is not of the plain one: on every other line the events,
the report and the collected request are the same. -/
theorem options_matter_only_where_read (o : Options) (S : Sink σ) (line : String) (s : σ) :
    ((∀ e ∈ (Request.run { o with escapeRule := .verbatim } (Sink.both Sink.record S) line
        (#[], s)).consumer.1.toList, e.isUnescaped = false) →
      Request.run { o with escapeRule := .backslash } (Sink.both Sink.record S) line (#[], s)
          = Request.run { o with escapeRule := .verbatim } (Sink.both Sink.record S) line (#[], s)
        ∧ Request.run { o with escapeRule := .backslash } S line s
          = Request.run { o with escapeRule := .verbatim } S line s)
    ∧ (∀ (bound : Nat) (xs ys : List Char) (c : Config Label σ) (l : Label),
      (Request.machine o S).feed bound 0 xs { consumer := s } = .ok () c →
      Request.rawState? ((Request.machine o S).label c) = some l →
      .character l '\\' (Text.byteSize xs)
        ∈ (Request.run o Sink.record (String.ofList (xs ++ '\\' :: ys)) #[]).consumer)
    ∧ ((∀ ch ∈ line.toList, Text.isUnicodeBlank ch = true → Text.isPlainBlank ch = true) →
      Request.run { o with unicodeBlanks := true } (Sink.both Sink.record S) line (#[], s)
          = Request.run { o with unicodeBlanks := false } (Sink.both Sink.record S) line (#[], s)
        ∧ Request.run { o with unicodeBlanks := true } S line s
          = Request.run { o with unicodeBlanks := false } S line s
        ∧ (Collector.read { o with unicodeBlanks := true } line
            { options := { o with unicodeBlanks := true } }).consumer.request
          = (Collector.read { o with unicodeBlanks := false } line
            { options := { o with unicodeBlanks := false } }).consumer.request
        ∧ Request.parse { o with unicodeBlanks := true } line
          = Request.parse { o with unicodeBlanks := false } line) := by
  refine ⟨fun hquiet => ?_, fun bound xs ys c l => Request.passes_raw_backslash ys,
    fun hblank => ?_⟩
  · have htee := Request.run_of_no_unescaped (Sink.both_record_logs S) hquiet
    exact ⟨htee, Request.run_of_both_record htee⟩
  · have hagree : ∀ ch ∈ line.toList, Text.isUnicodeBlank ch = Text.isPlainBlank ch := by
      intro ch hch
      rw [Bool.eq_iff_iff]
      exact ⟨hblank ch hch, Text.isUnicodeBlank_of_isPlainBlank⟩
    have hcollected := Request.collected_of_no_wide_blank (o := o) hagree
    refine ⟨Request.run_of_no_wide_blank hagree, Request.run_of_no_wide_blank hagree, ?_, ?_⟩
    · rw [hcollected]
      rfl
    · unfold Request.parse
      rw [hcollected]
      rfl

/-- A run after which something can be read off came to an end. -/
theorem Run.exists_ok_of_run' {ρ σ β : Type} {x : Run ρ σ Unit} {f : Config ρ σ → β}
    {c : Config ρ σ} {b : β} (h : EStateM.run' (do x; return f (← get)) c = some b) :
    ∃ c', x c = .ok () c' ∧ f c' = b := by
  rw [EStateM.run', EStateM.run, Run.bind_apply] at h
  rcases hx : x c with ⟨_, c'⟩ | ⟨stop, c'⟩ <;> rw [hx] at h
  · exact ⟨c', rfl, Option.some.inj h⟩
  · cases h

/-- None of the backslashes in this line can be an escape, and none of its blanks is wide. -/
theorem options_do_not_matter_to_raw_backslashes :
    let line := ":a\\b >\\d"
    Request.run { escapeRule := .backslash } Sink.ignore line ()
        = Request.run { escapeRule := .verbatim } Sink.ignore line ()
      ∧ .character .outputTarget '\\' 6 ∈ (Request.run {} Sink.record line #[]).consumer
      ∧ Request.parse { unicodeBlanks := true } line
        = Request.parse { unicodeBlanks := false } line := by
  intro line
  obtain ⟨hescape, htext, hblank⟩ := options_matter_only_where_read {} Sink.ignore line ()
  let before := [':', 'a', '\\', 'b', ' ', '>']
  have hline : line = String.ofList (before ++ '\\' :: ['d']) := by decide +kernel
  have hplain : ∀ ch ∈ line.toList,
      Text.isUnicodeBlank ch = true → Text.isPlainBlank ch = true := by
    rw [hline, String.toList_ofList]
    intro ch hch
    simp only [before, List.cons_append, List.nil_append, List.mem_cons, List.not_mem_nil,
      or_false] at hch
    rcases hch with rfl | rfl | rfl | rfl | rfl | rfl | rfl | rfl <;>
      simp [Text.isUnicodeBlank, Text.inRanges, Text.whiteSpaceRanges, Text.isPlainBlank]
  have hrun : EStateM.run' (do
      (Request.machine {} Sink.ignore).feed 7 0 before
      return Request.rawState? ((Request.machine {} Sink.ignore).label (← get)))
        { consumer := () } = some (some .outputTarget) := by decide +kernel
  obtain ⟨c, hc, hraw⟩ := Run.exists_ok_of_run' hrun
  refine ⟨(hescape (by decide +kernel)).2, ?_, (hblank hplain).2.2.2⟩
  have hmem := htext 7 before ['d'] c _ hc hraw
  rw [← hline] at hmem
  exact hmem

end RequestLine
