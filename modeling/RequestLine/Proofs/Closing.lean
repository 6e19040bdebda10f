import RequestLine.Proofs.Settling

/-!
# The end of a line

At the end of a line the machine closes what is open, innermost first, and each state may object.
From every place this goes as `Place.finish` says (`Place.finish_follows`), so a whole line is read
as `Place.read` reads it (`Request.run_record`).
-/

namespace RequestLine

namespace Place

section Lines

variable {o : Options} {c : Conf} {es : List Event}

/-- The end of a line that was met after the events `es` does what `ending` says. -/
inductive Ends (es : List Event) : EStateM.Result Stop Conf Unit → Ending → Prop
  | accepted {c : Conf} {new : List Event} (h : c.consumer.toList = es ++ new) :
    Ends es (.ok () c) (new, none)
  | rejected {c : Conf} {new : List Event} {e : ParseError} (h : c.consumer.toList = es ++ new) :
    Ends es (.error (.failed e) c) (new, some e)

theorem Ends.delay {es' : List Event} {r : EStateM.Result Stop Conf Unit} {ending : Ending}
    (h : Ends (es ++ es') r ending) : Ends es r (delay es' ending) := by
  cases h with
  | accepted h =>
    rw [List.append_assoc] at h
    exact .accepted h
  | rejected h =>
    rw [List.append_assoc] at h
    exact .rejected h

section Closing

variable {p q : Place} {top : Frame Label} {rest : List (Frame Label)} {ending : Ending} {r : Nat}

theorem ends_start (h : At .start es c) :
    Ends es ((machine o).closeAll Request.bound r c) ([], none) := by
  have hst : c.stack = [] := h.stack
  have hclose : (machine o).closeAll Request.bound r c = .ok () c := by
    cases r <;> simp only [Machine.closeAll, Run.bind_apply, Run.get_apply, hst] <;> rfl
  rw [hclose]
  exact .accepted (by rw [h.events, List.append_nil])

theorem ends_fail {e : ParseError} (h : At p es c) (hp : p.stack = top :: rest)
    (hend : (machine o).handle Request.bound (Request.state top.state).onEnd c
      = .error (.failed e) c) :
    Ends es ((machine o).closeAll Request.bound (r + 1) c) ([], some e) := by
  have hclose : (machine o).closeAll Request.bound (r + 1) c = .error (.failed e) c := by
    have hend' : (machine o).handle Request.bound ((machine o).state top.state).onEnd c
      = .error (.failed e) c := hend
    simp only [Machine.closeAll, Run.bind_apply, Run.get_apply, h.stack.trans hp, hend']
  rw [hclose]
  exact .rejected (by rw [h.events, List.append_nil])

theorem closeAll_leave_error {e : Stop} {c' : Conf} (hst : c.stack = top :: rest)
    (hend : (machine o).handle Request.bound (Request.state top.state).onEnd c = .ok () c)
    (hleave : (machine o).leave ((machine o).handle Request.bound) c = .error e c') :
    (machine o).closeAll Request.bound (r + 1) c = .error e c' := by
  have hend' : (machine o).handle Request.bound ((machine o).state top.state).onEnd c
      = .ok () c := hend
  simp only [Machine.closeAll, Run.bind_apply, Run.get_apply, hst, hend', List.length_cons,
    Nat.lt_add_one, if_true, hleave]

theorem closeAll_step {c' : Conf} (hst : c.stack = top :: rest)
    (hend : (machine o).handle Request.bound (Request.state top.state).onEnd c = .ok () c)
    (hleave : (machine o).leave ((machine o).handle Request.bound) c = .ok () c') :
    (machine o).closeAll Request.bound (r + 1) c = (machine o).closeAll Request.bound r c' := by
  have hend' : (machine o).handle Request.bound ((machine o).state top.state).onEnd c
      = .ok () c := hend
  simp only [Machine.closeAll, Run.bind_apply, Run.get_apply, hst, hend', List.length_cons,
    Nat.lt_add_one, if_true, hleave]

/-- A state that is closed at the end of the line without complaint leaves the rest to the state
below it. -/
theorem ends_leave (h : At p es c) (hc : c.cursor = none) (hp : p.stack = top :: q.stack)
    (hend : (machine o).handle Request.bound (Request.state top.state).onEnd c = .ok () c)
    (hleave : (machine o).leave ((machine o).handle Request.bound) c = .ok () (closed top.state c))
    (hq : ∀ {c' : Conf}, At q (es ++ [Event.leaving top.state c.offset none]) c' →
      c'.cursor = none → c'.offset = c.offset →
      Ends (es ++ [Event.leaving top.state c.offset none])
        ((machine o).closeAll Request.bound r c') ending) :
    Ends es ((machine o).closeAll Request.bound (r + 1) c)
      (delay [.leaving top.state c.offset none] ending) := by
  rw [closeAll_step (h.stack.trans hp) hend hleave]
  exact (hq (h.closed hc hp) hc rfl).delay

theorem ends_list {f : Opening} (h : At (.list f) es c) (hc : c.cursor = none) :
    Ends es ((machine o).closeAll Request.bound (r + 1) c) (finishList c.offset f []) := by
  have hst : c.stack = [f.frame .propertyList] := h.stack
  refine ends_fail h rfl ?_
  change (machine o).fail .missingCloseParen c = _
  simp only [Machine.fail, Machine.diagnose, Machine.errorAt, Machine.label, Machine.current, hst,
    hc]
  rfl

theorem ends_property {f g : Opening} (h : At (.text (.property f g) .none) es c)
    (hc : c.cursor = none) :
    Ends es ((machine o).closeAll Request.bound (r + 2) c)
      (finishList c.offset f [.property]) := by
  have hst : c.stack = [g.frame .property, f.frame .propertyList] := h.stack
  change Ends es _ (delay [.leaving .property c.offset none] (finishList c.offset f []))
  refine ends_leave (q := .list f) h hc rfl rfl (leave_quiet hst rfl (.inl rfl) h.handedBack) ?_
  intro c' h' hc' ho'
  rw [← ho'] at h' ⊢
  exact ends_list h' hc'

theorem ends_value {f g v : Opening} (h : At (.text (.propertyValue f g v) .none) es c)
    (hc : c.cursor = none) :
    Ends es ((machine o).closeAll Request.bound (r + 3) c)
      (finishList c.offset f [.propertyValue, .property]) := by
  have hst : c.stack = [v.frame .propertyValue, g.frame .property, f.frame .propertyList] :=
    h.stack
  change Ends es _
    (delay [.leaving .propertyValue c.offset none] (finishList c.offset f [.property]))
  refine ends_leave (q := .text (.property f g) .none) h hc rfl rfl
    (leave_quiet hst rfl (.inl rfl) h.handedBack) ?_
  intro c' h' hc' ho'
  rw [← ho'] at h' ⊢
  exact ends_property h' hc'

theorem ends_literal {f g v q : Opening} {b : Bracket} {depth : Nat}
    (h : At (.literal f g v b q depth) es c) (hc : c.cursor = none) :
    Ends es ((machine o).closeAll Request.bound (r + 4) c)
      (finish o c.offset (.literal f g v b q depth)) := by
  have hst : c.stack = { q.frame b.label with depth } :: (Owner.propertyValue f g v).stack :=
    h.stack
  have hend : (Request.state b.label).onEnd = .fail .unmatchedBracket := by cases b <;> rfl
  have hlab : (machine o).label c = b.label := by
    simp only [Machine.label, Machine.current, hst]
    exact Request.label_state b.label
  have hskip : (Request.state b.label).onLeave = .skip := by cases b <;> rfl
  by_cases hlen : o.lenientBrackets = true
  · simp only [finish, if_pos hlen]
    have hpass : (machine o).handle Request.bound (.fail .unmatchedBracket) c = .ok () c := by
      have hopt : (machine o).options.lenientBrackets = true := hlen
      change (machine o).fail .unmatchedBracket c = _
      simp only [Machine.fail, Machine.diagnose, hopt, if_true]
    change Ends es _ (delay [.leaving b.label c.offset none]
      (finishList c.offset f [.propertyValue, .property]))
    refine ends_leave (q := .text (.propertyValue f g v) .none) h hc rfl ?_
      (leave_quiet hst hskip (.inl rfl) h.handedBack) ?_
    · exact (congrArg (fun a => (machine o).handle Request.bound a c) hend).trans hpass
    intro c' h' hc' ho'
    rw [← ho'] at h' ⊢
    exact ends_value h' hc'
  · simp only [finish, if_neg hlen]
    refine ends_fail h rfl ?_
    refine (congrArg (fun a => (machine o).handle Request.bound a c) hend).trans ?_
    have hopt : ¬ (machine o).options.lenientBrackets = true := hlen
    change (machine o).fail .unmatchedBracket c = _
    simp only [Machine.fail, Machine.diagnose, if_neg hopt, Machine.errorAt, hlab, hst, hc]
    rfl

theorem ends_node {f : Opening} (h : At (.text (.node f) .none) es c) (hc : c.cursor = none) :
    Ends es ((machine o).closeAll Request.bound (r + 1) c) (finishText c.offset (.node f)) :=
  ends_leave (q := .start) h hc rfl rfl (leave_single h.stack rfl) fun h' _ _ => ends_start h'

theorem ends_nodeName {f g : Opening} (h : At (.text (.nodeName f g) .none) es c)
    (hc : c.cursor = none) :
    Ends es ((machine o).closeAll Request.bound (r + 2) c)
      (finishText c.offset (.nodeName f g)) := by
  have hst : c.stack = [g.frame .nodeName, f.frame .node] := h.stack
  change Ends es _
    (delay [.leaving .nodeName c.offset none] (finishText c.offset (.node f)))
  refine ends_leave (q := .text (.node f) .none) h hc rfl rfl
    (leave_quiet hst rfl (.inl rfl) h.handedBack) ?_
  intro c' h' hc' ho'
  rw [← ho'] at h' ⊢
  exact ends_node h' hc'

theorem ends_operation {f : Opening} (h : At (.operation f) es c) (hc : c.cursor = none) :
    Ends es ((machine o).closeAll Request.bound (r + 1) c)
      (finish o c.offset (.operation f)) := by
  by_cases hf : f.forwarded = 0
  · simp only [finish, if_pos hf]
    have hclose : (machine o).closeAll Request.bound (r + 1) c
        = .error (.failed { cause := .emptyOperationName, offset := f.offset
                            state := .operationName, found := none }) (leavingOperation c) := by
      rw [← hc]
      exact closeAll_leave_error h.stack rfl (leave_operation_empty h hf)
    rw [hclose]
    exact .rejected (by simp [leavingOperation, h.events, hc])
  · simp only [finish, if_neg hf]
    exact ends_leave (q := .start) h hc rfl rfl (leave_operation h hf) fun h' _ _ => ends_start h'

theorem ends_target {f g : Opening} (h : At (.target f g) es c) (hc : c.cursor = none) :
    Ends es ((machine o).closeAll Request.bound (r + 1) c)
      (finish o c.offset (.target f g)) := by
  have hst : c.stack = [g.frame .outputTarget, f.frame .outputRedirect] := h.stack
  have hend : (machine o).handle Request.bound (.requireContent .emptyRedirectTarget) c
      = if g.forwarded = 0 then (machine o).fail .emptyRedirectTarget c else .ok () c :=
    handle_requireContent _ hst
  by_cases hg : g.forwarded = 0
  · simp only [finish, if_pos hg]
    refine ends_fail h rfl ?_
    rw [if_pos hg] at hend
    refine hend.trans ?_
    simp only [Machine.fail, Machine.diagnose, Machine.errorAt, Machine.label, Machine.current, hst,
      hc]
    rfl
  · simp only [finish, if_neg hg]
    rw [if_neg hg] at hend
    have hclosed : At (.redirect f) (es ++ [Event.leaving .outputTarget c.offset none])
        (closed .outputTarget c) := h.closed hc rfl
    have hleave : (machine o).leave ((machine o).handle Request.bound) c
        = .ok () (closed .outputRedirect (closed .outputTarget c)) := by
      have hst' : (closed (g.frame .outputTarget).state c).stack = [f.frame .outputRedirect] :=
        hclosed.stack
      refine (leave_eq (k := 6) hst rfl).trans ?_
      simp only [Machine.returned, Run.bind_apply, Run.get_apply, hst']
      exact leave_single (k := 5) hst' rfl
    have hstart : At .start (es ++ [Event.leaving .outputTarget c.offset none]
        ++ [Event.leaving .outputRedirect c.offset none])
        (closed .outputRedirect (closed .outputTarget c)) := hclosed.closed hc rfl
    rw [closeAll_step hst hend hleave]
    exact (ends_start hstart).delay.delay

end Closing

/-- The machine at the place `p` does at the end of the line what `Place.finish` says. -/
theorem finish_follows {p : Place} (h : At p es c) (n : Nat) :
    Ends es ((machine o).finish Request.bound n c) (p.finish o n) := by
  have hat : At p es { c with offset := n, cursor := none, handedBack := false } :=
    ⟨h.stack, rfl, h.events⟩
  change Ends es ((machine o).closeAll Request.bound Request.bound
    { c with offset := n, cursor := none, handedBack := false }) _
  have hfail : ∀ {top : Frame Label} {rest : List (Frame Label)} {x : Fault} {e : ParseError},
      p.stack = top :: rest → (Request.state top.state).onEnd = .fail x →
      (machine o).fail x { c with offset := n, cursor := none, handedBack := false }
        = .error (.failed e) { c with offset := n, cursor := none, handedBack := false } →
      Ends es ((machine o).closeAll Request.bound Request.bound
        { c with offset := n, cursor := none, handedBack := false }) ([], some e) := by
    intro top rest x e hp hx he
    exact ends_fail hat hp ((congrArg (fun a => (machine o).handle Request.bound a _) hx).trans he)
  cases p with
  | start => exact ends_start hat
  | text w s =>
    cases s with
    | none =>
      cases w with
      | node f => exact ends_node hat rfl
      | nodeName f g => exact ends_nodeName hat rfl
      | property f g => exact ends_property hat rfl
      | propertyValue f g v => exact ends_value hat rfl
    | escape e =>
      refine hfail rfl rfl ?_
      simp only [Machine.fail, Machine.diagnose, Machine.errorAt, Machine.label, Machine.current,
        h.stack]
      rfl
    | quotes q =>
      refine hfail rfl rfl ?_
      simp only [Machine.fail, Machine.diagnose, Machine.errorAt, Machine.label, Machine.current,
        h.stack]
      rfl
    | quotesEscape q e =>
      refine hfail rfl rfl ?_
      simp only [Machine.fail, Machine.diagnose, Machine.errorAt, Machine.label, Machine.current,
        h.stack]
      rfl
  | literal f g v b q depth => exact ends_literal hat rfl
  | operation f => exact ends_operation hat rfl
  | list f => exact ends_list hat rfl
  | requestEnd f =>
    exact ends_leave (q := .start) hat rfl rfl rfl (leave_single hat.stack rfl) fun h' _ _ =>
      ends_start h'
  | redirect f =>
    refine hfail rfl rfl ?_
    simp only [Machine.fail, Machine.diagnose, Machine.errorAt, Machine.label, Machine.current,
      h.stack]
    rfl
  | target f g => exact ends_target hat rfl

theorem read_follows {p : Place} (h : At p es c) (n : Nat) (cs : List Char) :
    Ends es ((machine o).read Request.bound n cs c) (p.read o n cs) := by
  have hfeed := feed_follows (o := o) h n cs
  simp only [Machine.read, Run.bind_apply, read]
  generalize p.feed o n cs = move at hfeed
  generalize (machine o).feed Request.bound n cs c = r at hfeed
  cases hfeed with
  | moved h' => exact (finish_follows h' _).delay
  | failed h' => exact .rejected h'

end Lines

/-- The outcome of a run whose reading ended with the error `e?`, if any. -/
def verdict (o : Options) : Option ParseError → Except Stop Unit
  | none => .ok ()
  | some e => .error (if o.fatalErrors then .fatal e else .failed e)

theorem Ends.conclude {o : Options} {r : EStateM.Result Stop Conf Unit} {ending : Ending}
    (h : Ends [] r ending) (line : String) :
    ((machine o).conclude line r).consumer.toList = ending.1
      ∧ ((machine o).conclude line r).outcome = verdict o ending.2 := by
  cases h with
  | accepted h => exact ⟨h, rfl⟩
  | rejected h => exact ⟨h, rfl⟩

end Place

/-- A request line is read from place to place. -/
theorem Request.run_record (o : Options) (line : String) :
    (Request.run o Sink.record line #[]).consumer.toList = (Place.read o 0 line.toList .start).1
      ∧ (Request.run o Sink.record line #[]).outcome
        = Place.verdict o (Place.read o 0 line.toList .start).2 := by
  have hread := Place.read_of_blanks o (List.all_takeWhile (p := o.isBlank) (l := line.toList)) 0
    (line.toList.dropWhile o.isBlank)
  rw [List.takeWhile_append_dropWhile, Nat.zero_add] at hread
  rw [hread]
  rcases hcs : line.toList.dropWhile o.isBlank with _ | ⟨ch, cs⟩
  · have hrun := (Request.machine o Sink.record).run_of_blank hcs Request.bound #[]
    exact ⟨congrArg (fun r => r.consumer.toList) hrun, congrArg Report.outcome hrun⟩
  · have hrun := (Request.machine o Sink.record).run_of_content hcs Request.bound #[]
    have hstart : Place.At .start [] ({ consumer := #[] } : Place.Conf) := ⟨rfl, rfl, rfl⟩
    rw [Request.run, hrun]
    exact (Place.read_follows hstart _ (ch :: cs)).conclude line

end RequestLine
