import RequestLine.Proofs.Lockstep
import RequestLine.Proofs.Replay
import RequestLine.Request.Parse

/-!
# Where a refusal is reported

A machine stands at one place of the line at a time: while it reads, the cursor is on a character
of the line and the offset is that character's, and while it closes what is open the cursor is past
the end. The journal tells which states are open, since a state is noted exactly when it is pushed
and when it is popped. So the error of a refused event can be told from the event, the line and the
journal (`Machine.run_replay`), and a sink decides nothing else about a run.
-/

namespace RequestLine

variable {ρ σ τ : Type}

/-- The character that stands at the byte offset `n`. -/
def Text.charAt? (n : Nat) (cs : List Char) : Option Char :=
  (splitAtByte? n cs).bind fun (_, after) => after.head?

theorem Text.charAt?_byteSize_append (before after : List Char) :
    charAt? (byteSize before) (before ++ after) = after.head? := by
  simp [charAt?, splitAtByte?_byteSize_append]

theorem Text.charAt?_eq_some_iff {n : Nat} {cs : List Char} {ch : Char} :
    charAt? n cs = some ch ↔ ∃ before after, cs = before ++ ch :: after ∧ n = byteSize before := by
  simp only [charAt?, Option.bind_eq_some_iff, Prod.exists, splitAtByte?_eq_some_iff]
  constructor
  · rintro ⟨before, after, ⟨rfl, rfl⟩, hhead⟩
    obtain ⟨after, rfl⟩ := List.head?_eq_some_iff.mp hhead
    exact ⟨before, after, rfl, rfl⟩
  · rintro ⟨before, after, rfl, rfl⟩
    exact ⟨before, ch :: after, ⟨rfl, rfl⟩, rfl⟩

theorem Text.charAt?_append {n : Nat} {cs : List Char} {ch : Char} (h : charAt? n cs = some ch)
    (ds : List Char) : charAt? n (cs ++ ds) = some ch := by
  obtain ⟨before, after, rfl, rfl⟩ := charAt?_eq_some_iff.mp h
  exact charAt?_eq_some_iff.mpr ⟨before, after ++ ds, by simp, rfl⟩

/-- The states that the journal leaves open, innermost first. -/
def Note.openStates (notes : List Note) : List Label :=
  notes.foldl (fun opened note =>
    match note with
    | .entered l _ => l :: opened
    | .left _ _ => opened.tail
    | .rejected _ _ => opened) []

theorem Note.openStates_append_singleton (notes : List Note) (note : Note) :
    openStates (notes ++ [note]) =
      match note with
      | .entered l _ => l :: openStates notes
      | .left _ _ => (openStates notes).tail
      | .rejected _ _ => openStates notes := by
  simp only [openStates, List.foldl_append, List.foldl_cons, List.foldl_nil]

def Report.hand (r : Report τ) (s : σ) : Report σ :=
  { outcome := r.outcome, consumer := s, notes := r.notes }

namespace Machine

section Cursor

variable (m : Machine ρ σ)

/-- Two configurations that stand at the same place of the line. -/
def SameCursor (c c' : Config ρ σ) : Prop :=
  c'.cursor = c.cursor ∧ c'.offset = c.offset

theorem sameCursor_kept : m.Kept SameCursor where
  refl _ := ⟨rfl, rfl⟩
  trans h h' := ⟨h'.1.trans h.1, h'.2.trans h.2⟩
  consumer _ _ := ⟨rfl, rfl⟩
  handedBack _ _ := ⟨rfl, rfl⟩
  top c f _ _ := by
    obtain ⟨_ | ⟨top, rest⟩, _, _, _, _, _⟩ := c <;> exact ⟨rfl, rfl⟩
  push _ _ := ⟨rfl, rfl⟩
  pop _ _ := ⟨rfl, rfl⟩

theorem advance_cursor (b n : Nat) (ch : Char) (c : Config ρ σ) :
    (Run.final (m.advance b n ch c)).cursor = some ch
      ∧ (Run.final (m.advance b n ch c)).offset = n :=
  m.sameCursor_kept.dispatch b { c with offset := n, cursor := some ch }

/-- A run that ends early stands on a character of the line. -/
theorem feed_error_cursor (b : Nat) : ∀ (n : Nat) (cs : List Char) {c c' : Config ρ σ}
    {stop : Stop}, m.feed b n cs c = .error stop c' →
      ∃ before ch after, cs = before ++ ch :: after ∧ c'.cursor = some ch
        ∧ c'.offset = n + Text.byteSize before
  | _, [], c, c', stop, h => by
    simp [feed, Run.pure_apply] at h
  | n, ch :: cs, c, c', stop, h => by
    simp only [feed, Run.bind_apply] at h
    have hcur := m.advance_cursor b n ch c
    rcases ha : m.advance b n ch c with ⟨_, c₁⟩ | ⟨e, c₁⟩
    · rw [ha] at h
      obtain ⟨before, d, after, rfl, hd, ho⟩ := feed_error_cursor b (n + ch.utf8Size) cs h
      exact ⟨ch :: before, d, after, rfl, hd, by rw [ho, Text.byteSize_cons, Nat.add_assoc]⟩
    · rw [ha] at h hcur
      simp only [EStateM.Result.error.injEq] at h
      obtain ⟨-, rfl⟩ := h
      exact ⟨[], ch, cs, rfl, hcur.1, hcur.2⟩

theorem finish_cursor (b n : Nat) (c : Config ρ σ) :
    (Run.final (m.finish b n c)).cursor = none ∧ (Run.final (m.finish b n c)).offset = n :=
  m.sameCursor_kept.closeAll b b { c with offset := n, cursor := none, handedBack := false }

/-- The cursor of a run that ends early is the character at its offset, and past the end of the
line if the run was closing what is open. -/
theorem read_error_cursor {b : Nat} {lead cs : List Char} {c c' : Config ρ σ} {stop : Stop}
    (h : m.read b (Text.byteSize lead) cs c = .error stop c') :
    c'.cursor = Text.charAt? c'.offset (lead ++ cs) := by
  simp only [read, Run.bind_apply] at h
  rcases hf : m.feed b (Text.byteSize lead) cs c with ⟨_, c₁⟩ | ⟨e, c₁⟩
  · rw [hf] at h
    have hcur := m.finish_cursor b (Text.byteSize lead + Text.byteSize cs) c₁
    simp only [] at h
    rw [h] at hcur
    have hend := Text.charAt?_byteSize_append (lead ++ cs) []
    rw [List.append_nil, Text.byteSize_append] at hend
    simp only [Run.final] at hcur
    rw [hcur.1, hcur.2, hend, List.head?_nil]
  · rw [hf] at h
    simp only [EStateM.Result.error.injEq] at h
    obtain ⟨-, rfl⟩ := h
    obtain ⟨before, ch, after, rfl, hch, ho⟩ := m.feed_error_cursor b _ cs hf
    have hat := Text.charAt?_byteSize_append (lead ++ before) (ch :: after)
    rw [List.append_assoc, Text.byteSize_append] at hat
    rw [hch, ho, hat, List.head?_cons]

end Cursor

section Journal

variable (m : Machine ρ σ)

/-- The journal of the configuration tells its open states. -/
def Journaled (c : Config ρ σ) : Prop :=
  c.stack.map (fun f => (m.state f.state).label) = Note.openStates c.notes.toList

theorem journaled_kept : m.Kept fun c c' => m.Journaled c → m.Journaled c' where
  refl _ h := h
  trans h h' hc := h' (h hc)
  consumer _ _ h := h
  handedBack _ _ h := h
  top c f hf _ h := by
    obtain ⟨_ | ⟨top, rest⟩, _, _, _, _, _⟩ := c
    · exact h
    · simpa only [Journaled, Config.mapTop, List.map_cons, hf] using h
  push c s h := by
    simp only [Journaled, Config.push, Config.note, List.map_cons, Array.toList_push,
      Note.openStates_append_singleton] at h ⊢
    rw [h]
  pop c l h := by
    simp only [Journaled, Config.pop, Config.note, List.map_tail, Array.toList_push,
      Note.openStates_append_singleton] at h ⊢
    rw [h]

theorem feed_journaled (b : Nat) : ∀ (n : Nat) (cs : List Char) {c : Config ρ σ},
    m.Journaled c → m.Journaled (Run.final (m.feed b n cs c))
  | _, [], c, h => h
  | n, ch :: cs, c, h => by
    simp only [feed, Run.bind_apply]
    have ha : m.Journaled (Run.final (m.advance b n ch c)) :=
      m.journaled_kept.dispatch b { c with offset := n, cursor := some ch } h
    rcases hx : m.advance b n ch c with ⟨_, c₁⟩ | ⟨e, c₁⟩ <;> rw [hx] at ha
    · exact feed_journaled b (n + ch.utf8Size) cs ha
    · exact ha

theorem read_journaled (b n : Nat) (cs : List Char) (s : σ) :
    m.Journaled (Run.final (m.read b n cs { consumer := s })) := by
  have hf : m.Journaled (Run.final (m.feed b n cs { consumer := s })) :=
    m.feed_journaled b n cs rfl
  simp only [read, Run.bind_apply]
  rcases hx : m.feed b n cs { consumer := s } with ⟨_, c₁⟩ | ⟨e, c₁⟩ <;> rw [hx] at hf
  · exact m.journaled_kept.closeAll b b
      { c₁ with offset := n + Text.byteSize cs, cursor := none, handedBack := false } hf
  · exact hf

theorem Journaled.label {m : Machine ρ σ} {c : Config ρ σ} (h : m.Journaled c) :
    m.label c = (Note.openStates c.notes.toList).headD (m.state m.initial).label := by
  rw [← h]
  obtain ⟨_ | ⟨top, rest⟩, _, _, _, _, _⟩ := c <;> rfl

end Journal

section Runs

variable (m : Machine ρ σ)

/-- The error of a run that ended with `notes` in its journal because the sink refused `e`. A state
that was to be opened is not open yet, so the error is in the state around it. -/
def refusal (line : String) (notes : Array Note) (e : Event) (reason : String) : ParseError where
  cause := .rejected reason
  offset := e.offset
  state :=
    match e with
    | .entered _ _ => (Note.openStates notes.toList).headD (m.state m.initial).label
    | .character l _ _ => l
    | .leaving l _ _ => l
  found := Text.charAt? e.offset line.toList

theorem errorAt_eq_refusal {c : Config ρ σ} {e : Event} (hc : m.Concerns c e)
    (hj : m.Journaled c) {line : String} (hcur : c.cursor = Text.charAt? c.offset line.toList)
    (reason : String) :
    m.errorAt c (.rejected reason) c.offset = m.refusal line c.notes e reason := by
  cases e with
  | entered l n =>
    simp only [Concerns] at hc
    simp only [errorAt, refusal, Event.offset, hc, hcur, hj.label]
  | character l ch n =>
    obtain ⟨hl, -, hn⟩ := hc
    simp only [errorAt, refusal, Event.offset, hn, hcur, hl]
  | leaving l n closing =>
    obtain ⟨hl, -, hn⟩ := hc
    simp only [errorAt, refusal, Event.offset, hn, hcur, hl]

theorem conclude_handed (S : Sink τ) (line : String)
    (r : EStateM.Result Stop (Config ρ σ) Unit) (s : τ) :
    (m.withSink S).conclude line (Run.handed r s) = (m.conclude line r).hand s := by
  rcases r with ⟨_, c⟩ | ⟨_ | _ | _, c⟩ <;> rfl

/-- There are offers, each an event with the journal at that moment, such that the recording run
writes their events down and the run with any sink is a replay of them: the sink takes all and the
run ends as the recording one does, or it refuses one and the run ends there with the error of that
refusal. -/
theorem run_replay (b : Nat) (line : String) :
    ∃ offers : List (Event × Array Note),
      (m.recording.run b line #[]).consumer.toList = offers.map Prod.fst
      ∧ ∀ (τ : Type) (S : Sink τ) (s : τ),
        (∃ s', S.Takes (offers.map Prod.fst) s s'
          ∧ (m.withSink S).run b line s = (m.recording.run b line #[]).hand s')
        ∨ ∃ taken o rest s₁ reason s₂, offers = taken ++ o :: rest
          ∧ S.Takes (taken.map Prod.fst) s s₁ ∧ S o.1 s₁ = .error reason s₂
          ∧ (m.withSink S).run b line s = (m.withSink S).conclude line
              (.error (.failed (m.refusal line o.2 o.1 reason))
                { consumer := s₂, notes := o.2 }) := by
  rcases hcs : line.toList.dropWhile m.options.isBlank with _ | ⟨ch, cs⟩
  · refine ⟨[], by rw [m.recording.run_of_blank hcs]; rfl, fun τ S s => .inl ⟨s, .nil S s, ?_⟩⟩
    rw [(m.withSink S).run_of_blank hcs, m.recording.run_of_blank hcs]
    rfl
  · obtain ⟨offers, hr, hcon, hs⟩ := read_mirroring (m := m.withSink Sink.ignore) b
      (Text.byteSize (line.toList.takeWhile m.options.isBlank)) (ch :: cs) { consumer := #[] }
    refine ⟨offers.map fun o => (o.1, o.2.notes), ?_, fun τ S s => ?_⟩
    · rw [m.recording.run_of_content hcs, conclude_consumer, List.map_map]
      exact hr
    rw [(m.withSink S).run_of_content hcs, m.recording.run_of_content hcs, List.map_map]
    rcases hs τ S s with ⟨s', ht, hx⟩ | ⟨taken, o, rest, s₁, reason, s₂, rfl, ht, ho, hx⟩
    · exact .inl ⟨s', ht, (congrArg _ hx).trans (m.recording.conclude_handed S line _ s')⟩
    · replace hx : (m.withSink S).read b (Text.byteSize (line.toList.takeWhile m.options.isBlank))
          (ch :: cs) { consumer := s } = _ := hx
      have hj := (m.withSink S).read_journaled b
        (Text.byteSize (line.toList.takeWhile m.options.isBlank)) (ch :: cs) s
      have hcur := (m.withSink S).read_error_cursor hx
      rw [← hcs, List.takeWhile_append_dropWhile] at hcur
      rw [hx] at hj
      have herr := (m.withSink Sink.ignore).errorAt_eq_refusal (hcon o (by simp)) hj hcur reason
      have hopt : (m.withSink S).options = m.options := rfl
      refine .inr ⟨taken.map fun o => (o.1, o.2.notes), (o.1, o.2.notes),
        rest.map fun o => (o.1, o.2.notes), s₁, reason, s₂, by simp, ?_, ho, ?_⟩
      · rw [List.map_map]
        exact ht
      · rw [hopt, hx, herr]
        rfl

end Runs

end Machine

/-- The sink refuses nothing. -/
def Sink.Accepting (S : Sink σ) : Prop :=
  ∀ e s, ∃ t, S e s = .ok () t

theorem Sink.ofStep_accepting (step : σ → Event → σ) : (Sink.ofStep step).Accepting :=
  fun e s => ⟨step s e, rfl⟩

/-- A sink that refuses nothing takes all events of the recording run, and its run ends alike. -/
theorem Machine.run_of_accepting (m : Machine ρ σ) {S : Sink τ} (hS : S.Accepting) (b : Nat)
    (line : String) (s : τ) :
    ∃ s', S.Takes (m.recording.run b line #[]).consumer.toList s s'
      ∧ (m.withSink S).run b line s = (m.recording.run b line #[]).hand s' := by
  obtain ⟨offers, hr, hs⟩ := m.run_replay b line
  rcases hs τ S s with ⟨s', ht, hx⟩ | ⟨taken, o, rest, s₁, reason, s₂, -, -, ho, -⟩
  · exact ⟨s', by rw [hr]; exact ht, hx⟩
  · obtain ⟨t, ht⟩ := hS o.1 s₁
    rw [ht] at ho
    cases ho

/-- A sink that follows a function makes of a run what the function makes of the recorded
events. -/
theorem Machine.run_ofStep (m : Machine ρ σ) (step : τ → Event → τ) (b : Nat) (line : String)
    (s : τ) :
    (m.withSink (Sink.ofStep step)).run b line s =
      (m.recording.run b line #[]).hand
        ((m.recording.run b line #[]).consumer.toList.foldl step s) := by
  obtain ⟨s', ht, hx⟩ := m.run_of_accepting (Sink.ofStep_accepting step) b line s
  have hs := Sink.replay_of_takes ht
  rw [Sink.replay_ofStep] at hs
  simp only [Prod.mk.injEq, EStateM.Result.ok.injEq, true_and] at hs
  rw [hx, ← hs]

namespace Machine

/-- A sink that is fed behind a recording one goes through the run that it would go through alone,
and the record is what it was offered: all events, if it takes them, or those up to the one that it
refuses. -/
theorem run_both_record (m : Machine ρ σ) (b : Nat) (line : String) (s : σ) :
    ∃ offered : List Event,
      (m.withSink (Sink.both Sink.record m.sink)).run b line (#[], s)
        = (m.run b line s).hand (offered.toArray, (m.run b line s).consumer)
      ∧ offered <+: (m.recording.run b line #[]).consumer.toList
      ∧ ((m.sink.Takes offered s (m.run b line s).consumer
          ∧ offered = (m.recording.run b line #[]).consumer.toList
          ∧ (m.run b line s).outcome = (m.recording.run b line #[]).outcome)
        ∨ ∃ taken e s₁ reason s₂ notes, offered = taken ++ [e] ∧ m.sink.Takes taken s s₁
          ∧ m.sink e s₁ = .error reason s₂
          ∧ m.run b line s = m.conclude line (.error (.failed (m.refusal line notes e reason))
              { consumer := s₂, notes })) := by
  obtain ⟨offers, hr, hs⟩ := m.run_replay b line
  have htee := Sink.replay_both_record m.sink (offers.map Prod.fst) #[] s
  rcases hs σ m.sink s with ⟨s', ht, hx⟩ | ⟨taken, o, rest, s₁, reason, s₂, rfl, ht, ho, hx⟩
  · replace hx : m.run b line s = (m.recording.run b line #[]).hand s' := hx
    rw [Sink.replay_of_takes ht] at htee
    rcases hs _ (Sink.both Sink.record m.sink) (#[], s) with
      ⟨t', ht', hx'⟩ | ⟨taken, o, rest, s₁, reason, s₂, hof, ht', ho', -⟩
    · rw [Sink.replay_of_takes ht'] at htee
      simp only [Prod.mk.injEq, EStateM.Result.ok.injEq, true_and] at htee
      refine ⟨offers.map Prod.fst, ?_, hr ▸ List.prefix_rfl, .inl ⟨?_, hr.symm, ?_⟩⟩
      · rw [hx, hx', htee]
        simp [Report.hand]
      · rw [hx]
        exact ht
      · rw [hx]
        rfl
    · rw [hof, List.map_append, List.map_cons, Sink.replay_of_refuses ho' _ ht'] at htee
      simp at htee
  · replace hx : m.run b line s = m.conclude line
        (.error (.failed (m.refusal line o.2 o.1 reason)) { consumer := s₂, notes := o.2 }) := hx
    rw [List.map_append, List.map_cons, Sink.replay_of_refuses ho _ ht] at htee
    rcases hs _ (Sink.both Sink.record m.sink) (#[], s) with
      ⟨t', ht', -⟩ | ⟨taken', o', rest', s₁', reason', s₂', hof, ht', ho', hx'⟩
    · rw [List.map_append, List.map_cons] at ht'
      rw [Sink.replay_of_takes ht'] at htee
      simp at htee
    · have hsplit := htee
      rw [← List.map_cons, ← List.map_append, hof, List.map_append, List.map_cons,
        Sink.replay_of_refuses ho' _ ht'] at hsplit
      simp only [Prod.mk.injEq, EStateM.Result.error.injEq] at hsplit
      obtain ⟨hoff, rfl, rfl⟩ := hsplit
      have hlen : taken.length = taken'.length := by
        simpa using congrArg List.length hoff.symm
      obtain ⟨rfl, hcons⟩ := List.append_inj hof hlen
      obtain ⟨rfl, rfl⟩ := List.cons.inj hcons
      refine ⟨taken.map Prod.fst ++ [o.1], ?_, ?_,
        .inr ⟨_, o.1, s₁, _, s₂, o.2, rfl, ht, ho, hx⟩⟩
      · rw [hx, hx']
        simp [conclude, Report.hand]
        rfl
      · rw [hr]
        exact ⟨rest.map Prod.fst, by simp⟩

end Machine

theorem Request.run_of_accepting (o : Options) {S : Sink σ} (hS : S.Accepting) (line : String)
    (s : σ) :
    ∃ s', S.Takes (Request.run o Sink.record line #[]).consumer.toList s s'
      ∧ Request.run o S line s = (Request.run o Sink.record line #[]).hand s' :=
  (Request.machine o Sink.record).run_of_accepting hS Request.bound line s

theorem Request.run_ofStep (o : Options) (step : σ → Event → σ) (line : String) (s : σ) :
    Request.run o (Sink.ofStep step) line s = (Request.run o Sink.record line #[]).hand
      ((Request.run o Sink.record line #[]).consumer.toList.foldl step s) :=
  (Request.machine o Sink.record).run_ofStep step Request.bound line s

/-- The events that a sink is offered are a beginning of the recorded ones. If it takes them, they
are all of them and the run ends as the recording one does. If it refuses one, that is the last
that it is offered, and the run ends with the refusal: at the event's offset and the character
there, in the event's own state or, for a state that was to be opened, in the one around it. So
every consumer of request lines that refuses nothing accepts the same lines with the same errors,
and the collector makes of a line what it makes of the recorded events. -/
theorem sink_influences_only_by_refusing (m : Machine ρ σ) (line : String) (s : σ)
    (r : Report (Array Event)) (h : m.recording.Returns line #[] r) :
    (∃ (q : Report σ) (offered : List Event), m.Returns line s q
      ∧ (m.withSink (Sink.both Sink.record m.sink)).Returns line (#[], s)
          (q.hand (offered.toArray, q.consumer))
      ∧ offered <+: r.consumer.toList
      ∧ ((m.sink.Takes offered s q.consumer ∧ offered = r.consumer.toList
          ∧ q.outcome = r.outcome)
        ∨ ∃ taken e s₁ reason err, offered = taken ++ [e] ∧ m.sink.Takes taken s s₁
          ∧ m.sink e s₁ = .error reason q.consumer
          ∧ q.outcome = .error (if m.options.fatalErrors then .fatal err else .failed err)
          ∧ err.cause = .rejected reason
          ∧ err.offset = e.offset
          ∧ err.found = Text.charAt? e.offset line.toList
          ∧ err.state = match e with
            | .entered _ _ => (Note.openStates q.notes.toList).headD (m.state m.initial).label
            | .character l _ _ => l
            | .leaving l _ _ => l))
    ∧ ∀ (o : Options) (line : String) (c : Collector),
        Request.check o line = (Collector.read o line c).outcome
        ∧ (Collector.read o line c).consumer
          = (Request.run o Sink.record line #[]).consumer.toList.foldl Collector.step c := by
  refine ⟨?_, fun o line c => ⟨?_, ?_⟩⟩
  · obtain ⟨b, rfl, hb⟩ := h
    obtain ⟨offered, htee, hpre, ⟨ht, ho, hout⟩ | ⟨taken, e, s₁, reason, s₂, notes, ho, ht, he, hx⟩⟩
      := m.run_both_record b line s
    · have hne : (m.run b line s).outcome ≠ .error .exhausted := by rw [hout]; exact hb
      exact ⟨m.run b line s, offered, ⟨b, rfl, hne⟩, ⟨b, htee, hne⟩, hpre, .inl ⟨ht, ho, hout⟩⟩
    · have hne : (m.run b line s).outcome ≠ .error .exhausted := by
        rw [hx]
        simp only [Machine.conclude]
        split <;> simp
      refine ⟨m.run b line s, offered, ⟨b, rfl, hne⟩, ⟨b, htee, hne⟩, hpre,
        .inr ⟨taken, e, s₁, reason, m.refusal line notes e reason, ho, ht, ?_, ?_, rfl, rfl, rfl,
          ?_⟩⟩
      · rw [hx]
        exact he
      · rw [hx]
        rfl
      · rw [hx]
        simp only [Machine.conclude, Machine.refusal, Array.toList_push,
          Note.openStates_append_singleton]
  · have hc : Request.check o line = (Request.run o Sink.record line #[]).outcome := by
      simp only [Request.check]
      exact congrArg Report.outcome (Request.run_ofStep o (fun _ _ => ()) line ())
    rw [hc, Collector.read, Collector.sink, Request.run_ofStep, Report.hand]
  · rw [Collector.read, Collector.sink, Request.run_ofStep, Report.hand]

theorem sink_refusing_second_event :
    (Request.machine {} (Sink.recordUnless (some 1) [])).recording.Returns "a" #[]
        (Request.run {} Sink.record "a" #[])
      ∧ ∃ q, (Request.machine {} (Sink.recordUnless (some 1) [])).Returns "a" #[] q
        ∧ ∃ err, q.outcome = .error (.failed err) ∧ err.cause = .rejected "limit"
          ∧ err.offset = 0 ∧ err.found = some 'a' ∧ err.state = .node := by
  have hok : (Request.run {} Sink.record "a" #[]).outcome = .ok () := by cbv
  have h : (Request.machine {} (Sink.recordUnless (some 1) [])).recording.Returns "a" #[]
      (Request.run {} Sink.record "a" #[]) := ⟨7, rfl, by rw [hok]; simp⟩
  have hrun : ((Request.machine {} (Sink.recordUnless (some 1) [])).run 7 "a" #[]).outcome
      = .error (.failed ⟨.rejected "limit", 0, .node, some 'a'⟩) := by cbv
  refine ⟨h, ?_⟩
  obtain ⟨⟨q, offered, hq, -, -, ⟨-, -, hout⟩ | ⟨taken, e, s₁, reason, err, -, -, -, hout, -⟩⟩, -⟩
    := sink_influences_only_by_refusing
      (Request.machine {} (Sink.recordUnless (some 1) [])) "a" #[] _ h
  all_goals
    obtain rfl := hq.unique ⟨7, rfl, by rw [hrun]; simp⟩
    rw [hrun] at hout
  · rw [hok] at hout
    cases hout
  · exact ⟨_, hq, _, hrun, by decide⟩

end RequestLine
