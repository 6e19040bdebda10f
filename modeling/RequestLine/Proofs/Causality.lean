import RequestLine.Proofs.Viable

/-!
# Causality

A machine does not look ahead. While the cursor stands on a character, all that the machine reports
stands there too, and an error names that character; while it closes what is open, everything is at
the end of the line (`Machine.located_upheld`). So the events before an offset are those that were
reported before the cursor came there, and what follows in the line has no part in them
(`Machine.run_append`). In particular an error at a character is the error of every line that goes
on from there. This holds for every table and every sink.
-/

namespace RequestLine

variable {ρ σ : Type}

/-- The list `log` of the sink has every event that it was offered, also one that it refused. -/
def Sink.Logs (S : Sink σ) (log : σ → List Event) : Prop :=
  ∀ e s, log (match S e s with | .ok _ t => t | .error _ t => t) = log s ++ [e]

theorem Sink.both_record_logs (S : Sink σ) :
    (Sink.both Sink.record S).Logs fun s => s.1.toList := by
  intro e s
  have hrec : Sink.record e s.1 = .ok () (s.1.push e) := rfl
  unfold Sink.both
  simp only [hrec]
  split <;> rename_i h <;> split at h <;> cases h <;> simp

theorem Sink.record_logs : Sink.record.Logs Array.toList := fun e s => by
  change (s.push e).toList = s.toList ++ [e]
  exact Array.toList_push

theorem Sink.Logs.takes {S : Sink σ} {log : σ → List Event} (h : S.Logs log) :
    ∀ {es : List Event} {s s' : σ}, S.Takes es s s' → log s' = log s ++ es
  | [], s, s', ht => by
    obtain rfl : s = s' := by simpa [Takes, List.forM, pure, EStateM.pure] using ht
    exact (List.append_nil _).symm
  | e :: es, s, s', ht => by
    obtain ⟨t, he, ht⟩ := takes_cons_iff.1 ht
    have hnew := h e s
    rw [he] at hnew
    rw [h.takes ht, hnew, List.append_assoc, List.singleton_append]

/-- The event stands at the offset `n`, and the character that it tells of is the one under the
cursor. -/
def Event.StandsAt (cursor : Option Char) (n : Nat) : Event → Prop
  | .entered _ k => k = n
  | .character _ ch k => some ch = cursor ∧ k = n
  | .leaving _ k closing => closing = cursor ∧ k = n

theorem Event.StandsAt.offset_eq {cursor : Option Char} {n : Nat} {e : Event}
    (h : e.StandsAt cursor n) : e.offset = n := by
  cases e with
  | entered l k => exact h
  | character l ch k => exact h.2
  | leaving l k closing => exact h.2

/-- The event stands at one of the characters `cs`, which begin at `n`, or at their end. -/
def Event.Among (n : Nat) (cs : List Char) (e : Event) : Prop :=
  ∃ before after, cs = before ++ after ∧ e.StandsAt after.head? (n + Text.byteSize before)

theorem Event.Among.le_offset {n : Nat} {cs : List Char} {e : Event} (h : e.Among n cs) :
    n ≤ e.offset := by
  obtain ⟨before, after, -, hstands⟩ := h
  have := hstands.offset_eq
  omega

theorem Event.Among.mem {l : Label} {ch : Char} {k n : Nat} {cs : List Char}
    (h : (Event.character l ch k).Among n cs) : ch ∈ cs := by
  obtain ⟨before, after, rfl, hch, -⟩ := h
  obtain ⟨rest, rfl⟩ := List.head?_eq_some_iff.mp hch.symm
  exact List.mem_append_right before List.mem_cons_self

theorem Event.Among.cons {n : Nat} {ch : Char} {cs : List Char} {e : Event}
    (h : e.Among (n + ch.utf8Size) cs) : e.Among n (ch :: cs) := by
  obtain ⟨before, after, rfl, hstands⟩ := h
  refine ⟨ch :: before, after, rfl, ?_⟩
  rwa [Text.byteSize_cons, ← Nat.add_assoc]

theorem Event.Among.offset_le {n : Nat} {cs : List Char} {e : Event} (h : e.Among n cs) :
    e.offset ≤ n + Text.byteSize cs := by
  obtain ⟨before, after, rfl, hstands⟩ := h
  rw [hstands.offset_eq, Text.byteSize_append]
  omega

/-- The events stand at the characters `cs`, which begin at `n`, or at their end, and none of them
stands before one that came earlier. -/
structure Event.Along (n : Nat) (cs : List Char) (es : List Event) : Prop where
  among : ∀ e ∈ es, e.Among n cs
  sorted : es.Pairwise (·.offset ≤ ·.offset)

theorem Event.sorted_of_standsAt {cursor : Option Char} {n : Nat} {es : List Event}
    (h : ∀ e ∈ es, e.StandsAt cursor n) : es.Pairwise (·.offset ≤ ·.offset) := by
  refine List.pairwise_of_forall_mem_list fun e he e' he' => ?_
  rw [(h e he).offset_eq, (h e' he').offset_eq]

theorem Event.Along.nil (n : Nat) (cs : List Char) : Event.Along n cs [] :=
  ⟨by simp, .nil⟩

theorem Event.Along.of_standsAt {n : Nat} {cs : List Char} {es : List Event}
    (h : ∀ e ∈ es, e.StandsAt cs.head? n) : Event.Along n cs es :=
  ⟨fun e he => ⟨[], cs, rfl, h e he⟩, sorted_of_standsAt h⟩

theorem Event.Along.cons {n : Nat} {ch : Char} {cs : List Char} {es es' : List Event}
    (h : ∀ e ∈ es, e.StandsAt (some ch) n) (h' : Event.Along (n + ch.utf8Size) cs es') :
    Event.Along n (ch :: cs) (es ++ es') where
  among e he := (List.mem_append.mp he).elim (fun he => ⟨[], ch :: cs, rfl, h e he⟩)
    fun he => (h'.among e he).cons
  sorted := by
    refine List.pairwise_append.mpr ⟨sorted_of_standsAt h, h'.sorted, fun e he e' he' => ?_⟩
    have hat := (h e he).offset_eq
    have hlater := (h'.among e' he').le_offset
    omega

theorem Event.Along.append_end {n : Nat} {cs : List Char} {es es' : List Event}
    (h : Event.Along n cs es) (h' : ∀ e ∈ es', e.StandsAt none (n + Text.byteSize cs)) :
    Event.Along n cs (es ++ es') where
  among e he := (List.mem_append.mp he).elim (h.among e)
    fun he => ⟨cs, [], (List.append_nil cs).symm, h' e he⟩
  sorted := by
    refine List.pairwise_append.mpr ⟨h.sorted, sorted_of_standsAt h', fun e he e' he' => ?_⟩
    rw [(h' e' he').offset_eq]
    exact (h.among e he).offset_le

/-- The events that stand before the offset `n`. -/
def eventsBefore (n : Nat) (es : List Event) : List Event :=
  es.filter (·.offset < n)

theorem eventsBefore_append {n : Nat} (es : List Event) {es' : List Event}
    (h : ∀ e ∈ es', n ≤ e.offset) : eventsBefore n (es ++ es') = eventsBefore n es := by
  have hnone : es'.filter (·.offset < n) = [] := by
    rw [List.filter_eq_nil_iff]
    intro e he
    have := h e he
    simp only [decide_eq_true_eq]
    omega
  rw [eventsBefore, List.filter_append, hnone, List.append_nil, eventsBefore]

namespace Machine

variable {m : Machine ρ σ} {log : σ → List Event}

/-- What a step from `c` leaves behind is where the cursor of `c` is: the cursor has not moved, the
new events stand at it, and an error names the character under it. -/
structure Located (log : σ → List Event) (c : Config ρ σ)
    (r : EStateM.Result Stop (Config ρ σ) Unit) : Prop where
  cursor : (Run.final r).cursor = c.cursor
  offset : (Run.final r).offset = c.offset
  events : ∃ es, log (Run.final r).consumer = log c.consumer ++ es
    ∧ ∀ e ∈ es, e.StandsAt c.cursor c.offset
  found : ∀ {stop e c'}, r = .error stop c' → stop.error? = some e → e.found = c.cursor

theorem Located.of_ok {c c' : Config ρ σ} (hcursor : c'.cursor = c.cursor)
    (hoffset : c'.offset = c.offset) (hconsumer : c'.consumer = c.consumer) :
    Located log c (.ok () c') where
  cursor := hcursor
  offset := hoffset
  events := ⟨[], by simp [Run.final, hconsumer], by simp⟩
  found h _ := by cases h

theorem Located.trans {c c' : Config ρ σ} {r : EStateM.Result Stop (Config ρ σ) Unit}
    (h : Located log c (.ok () c')) (h' : Located log c' r) : Located log c r where
  cursor := h'.cursor.trans h.cursor
  offset := h'.offset.trans h.offset
  events := by
    obtain ⟨es, hlog, hes⟩ := h.events
    obtain ⟨es', hlog', hes'⟩ := h'.events
    have hcursor : c'.cursor = c.cursor := h.cursor
    have hoffset : c'.offset = c.offset := h.offset
    rw [hcursor, hoffset] at hes'
    refine ⟨es ++ es', ?_, fun e he => (List.mem_append.mp he).elim (hes e) (hes' e)⟩
    rw [hlog', ← List.append_assoc, ← hlog]
    rfl
  found hr he := (h'.found hr he).trans h.cursor

theorem standsAt_of_concerns {c : Config ρ σ} {e : Event} (h : m.Concerns c e) :
    e.StandsAt c.cursor c.offset := by
  cases e with
  | entered l k => exact h
  | character l ch k => exact h.2
  | leaving l k closing => exact h.2

/-- Whatever a machine does, it does at the cursor. -/
theorem located_upheld (hlog : m.sink.Logs log) : m.Upheld (Located log) where
  refl _ := .of_ok rfl rfl rfl
  trans := .trans
  exhausted c := by
    refine ⟨rfl, rfl, ⟨[], by simp [Run.final], by simp⟩, fun h he => ?_⟩
    cases h
    cases he
  report {c e} he := by
    have hnew := hlog e c.consumer
    have hstands : ∀ e' ∈ [e], e'.StandsAt c.cursor c.offset := by
      intro e' he'
      rw [List.mem_singleton.mp he']
      exact standsAt_of_concerns he
    unfold report
    split <;> rename_i hs <;> rw [hs] at hnew
    · exact ⟨rfl, rfl, ⟨[e], hnew, hstands⟩, fun h _ => by cases h⟩
    · refine ⟨rfl, rfl, ⟨[e], hnew, hstands⟩, fun h he => ?_⟩
      cases h
      cases he
      rfl
  fail f c := by
    unfold fail
    split
    · exact .of_ok rfl rfl rfl
    · refine ⟨rfl, rfl, ⟨[], by simp [Run.final], by simp⟩, fun h he => ?_⟩
      cases h
      cases he
      rfl
  handedBack _ _ := .of_ok rfl rfl rfl
  top c f _ _ := .of_ok (c.mapTop_cursor f) (c.mapTop_offset f) (c.mapTop_consumer f)
  push _ _ := .of_ok rfl rfl rfl
  pop _ _ := .of_ok rfl rfl rfl

/-- The events of a character stand at it. -/
theorem advance_located (hlog : m.sink.Logs log) (b n : Nat) (ch : Char) (c : Config ρ σ) :
    Located log { c with offset := n, cursor := some ch } (m.advance b n ch c) :=
  (located_upheld hlog).dispatch ((located_upheld hlog).handle b)
    { c with offset := n, cursor := some ch }

theorem finish_located (hlog : m.sink.Logs log) (b n : Nat) (c : Config ρ σ) :
    Located log { c with offset := n, cursor := none, handedBack := false } (m.finish b n c) :=
  (located_upheld hlog).closeAll b b { c with offset := n, cursor := none, handedBack := false }

theorem feed_events (hlog : m.sink.Logs log) (b : Nat) : ∀ (n : Nat) (cs : List Char)
    (c : Config ρ σ), ∃ es, log (Run.final (m.feed b n cs c)).consumer = log c.consumer ++ es
      ∧ Event.Along n cs es
  | n, [], c => ⟨[], (List.append_nil _).symm, .nil n []⟩
  | n, ch :: cs, c => by
    obtain ⟨es, hes, hstands⟩ := (advance_located hlog b n ch c).events
    simp only [feed, Run.bind_apply]
    rcases ha : m.advance b n ch c with ⟨_, c₁⟩ | ⟨stop, c₁⟩ <;> rw [ha] at hes
    · obtain ⟨es', hes', hlater⟩ := feed_events hlog b (n + ch.utf8Size) cs c₁
      refine ⟨es ++ es', ?_, hlater.cons hstands⟩
      rw [hes', ← List.append_assoc, ← hes]
      rfl
    · exact ⟨es, hes, .of_standsAt hstands⟩

/-- The events of characters that are read to the end of the line stand at them or at the end. -/
theorem read_events (hlog : m.sink.Logs log) (b n : Nat) (cs : List Char) (c : Config ρ σ) :
    ∃ es, log (Run.final (m.read b n cs c)).consumer = log c.consumer ++ es
      ∧ Event.Along n cs es := by
  obtain ⟨es, hes, halong⟩ := feed_events hlog b n cs c
  simp only [read, Run.bind_apply]
  rcases hf : m.feed b n cs c with ⟨_, c₁⟩ | ⟨stop, c₁⟩ <;> rw [hf] at hes
  · obtain ⟨es', hes', hstands⟩ := (finish_located hlog b (n + Text.byteSize cs) c₁).events
    refine ⟨es ++ es', ?_, halong.append_end hstands⟩
    rw [hes', ← List.append_assoc, ← hes]
    rfl
  · exact ⟨es, hes, halong⟩

theorem feed_append (m : Machine ρ σ) (b : Nat) : ∀ (n : Nat) (xs ys : List Char),
    m.feed b n (xs ++ ys) = do m.feed b n xs; m.feed b (n + Text.byteSize xs) ys
  | n, [], ys => by simp [feed]
  | n, ch :: xs, ys => by
    simp only [List.cons_append, feed, feed_append m b (n + ch.utf8Size) xs ys, bind_assoc,
      Text.byteSize_cons, Nat.add_assoc]

theorem read_append_error {b n : Nat} {xs : List Char} {c c' : Config ρ σ} {stop : Stop}
    (h : m.feed b n xs c = .error stop c') (ys : List Char) :
    m.read b n (xs ++ ys) c = .error stop c' := by
  simp only [read, feed_append, Run.bind_apply, h]

theorem read_append_ok {b n : Nat} {xs : List Char} {c c' : Config ρ σ}
    (h : m.feed b n xs c = .ok () c') (ys : List Char) :
    m.read b n (xs ++ ys) c = m.read b (n + Text.byteSize xs) ys c' := by
  simp only [read, feed_append, Run.bind_apply, h, Text.byteSize_append, Nat.add_assoc]

/-- Some characters and the same with others behind them are read with the same events before the
point where they part, and with the same error if the first reading has one at a character. -/
theorem read_append (hlog : m.sink.Logs log) (b n : Nat) (xs ys : List Char) (c : Config ρ σ) :
    eventsBefore (n + Text.byteSize xs) (log (Run.final (m.read b n xs c)).consumer)
        = eventsBefore (n + Text.byteSize xs)
          (log (Run.final (m.read b n (xs ++ ys) c)).consumer)
    ∧ ∀ {stop c' e ch}, m.read b n xs c = .error stop c' → stop.error? = some e →
        e.found = some ch → m.read b n (xs ++ ys) c = .error stop c' := by
  rcases hfeed : m.feed b n xs c with ⟨_, c₁⟩ | ⟨stop, c₁⟩
  · obtain ⟨es, hes, hlater⟩ := read_events hlog b (n + Text.byteSize xs) ys c₁
    have hend := finish_located hlog b (n + Text.byteSize xs) c₁
    obtain ⟨es', hes', hstands⟩ := hend.events
    have hread : m.read b n xs c = m.finish b (n + Text.byteSize xs) c₁ := by
      simp only [read, Run.bind_apply, hfeed]
    rw [read_append_ok hfeed, hread, hes, hes',
      eventsBefore_append _ fun e he => (hlater.among e he).le_offset,
      eventsBefore_append _ fun e he => (hstands e he).offset_eq.ge]
    refine ⟨rfl, fun {stop c' e ch} hfinish he hfound => ?_⟩
    rw [hend.found hfinish he] at hfound
    cases hfound
  · have hread : m.read b n xs c = .error stop c₁ := by
      simp only [read, Run.bind_apply, hfeed]
    rw [read_append_error hfeed, hread]
    exact ⟨rfl, fun h _ _ => h⟩

theorem conclude_outcome (m : Machine ρ σ) (line line' : String)
    (r : EStateM.Result Stop (Config ρ σ) Unit) :
    (m.conclude line r).outcome = (m.conclude line' r).outcome := by
  rcases r with ⟨_, c⟩ | ⟨_ | _ | _, c⟩ <;> rfl

/-- An error that a run ended with was found while reading. -/
theorem error_of_conclude {line : String} {r : EStateM.Result Stop (Config ρ σ) Unit} {stop : Stop}
    {e : ParseError} (h : (m.conclude line r).outcome = .error stop) (he : stop.error? = some e) :
    ∃ stop' c, r = .error stop' c ∧ stop'.error? = some e := by
  rcases r with ⟨_, c⟩ | ⟨e' | e' | _, c⟩
  · cases h
  · cases h
    refine ⟨.failed e', c, rfl, ?_⟩
    split at he
    · exact he
    · exact he
  · cases h
    exact ⟨.fatal e', c, rfl, he⟩
  · cases h
    cases he

/-- The events of a line stand at its characters, less the blanks that it begins with, or at its
end. -/
theorem run_events (hlog : m.sink.Logs log) (b : Nat) (line : String) (s : σ) :
    ∃ es, log (m.run b line s).consumer = log s ++ es
      ∧ Event.Along (Text.byteSize (line.toList.takeWhile m.options.isBlank))
        (line.toList.dropWhile m.options.isBlank) es := by
  rcases hcs : line.toList.dropWhile m.options.isBlank with _ | ⟨ch, cs⟩
  · rw [m.run_of_blank hcs]
    exact ⟨[], (List.append_nil _).symm, .nil _ _⟩
  · rw [m.run_of_content hcs, conclude_consumer]
    exact read_events hlog b _ (ch :: cs) { consumer := s }

/-- Within one bound, a line and one that goes on from it have the same events before the point
where they part, and the same error if the first has one at a character. A blank beginning is
skipped with the blanks that follow it. -/
theorem run_append (hlog : m.sink.Logs log) (b : Nat) (p t : String) (s : σ) :
    eventsBefore p.utf8ByteSize (log (m.run b p s).consumer)
        = eventsBefore p.utf8ByteSize (log (m.run b (p ++ t) s).consumer)
    ∧ ∀ stop e ch, (m.run b p s).outcome = .error stop → stop.error? = some e →
        e.found = some ch → (m.run b (p ++ t) s).consumer = (m.run b p s).consumer
          ∧ (m.run b (p ++ t) s).outcome = (m.run b p s).outcome := by
  rw [← Text.byteSize_toList]
  have hsplit := List.takeWhile_append_dropWhile (p := m.options.isBlank) (l := p.toList)
  rcases hcs : p.toList.dropWhile m.options.isBlank with _ | ⟨ch, cs⟩ <;> rw [hcs] at hsplit
  · rw [List.append_nil] at hsplit
    obtain ⟨es, hes, halong⟩ := run_events hlog b (p ++ t) s
    have hlead : Text.byteSize p.toList
        ≤ Text.byteSize ((p ++ t).toList.takeWhile m.options.isBlank) := by
      rw [String.toList_append, List.takeWhile_append, hsplit, if_pos rfl, Text.byteSize_append]
      exact Nat.le_add_right _ _
    rw [m.run_of_blank hcs, hes, eventsBefore_append _ fun e he =>
      hlead.trans (halong.among e he).le_offset]
    exact ⟨rfl, fun stop e ch h => by cases h⟩
  · have hcontent : (p ++ t).toList.dropWhile m.options.isBlank = ch :: (cs ++ t.toList) := by
      rw [String.toList_append, List.dropWhile_append, hcs]
      rfl
    have hlead : (p ++ t).toList.takeWhile m.options.isBlank
        = p.toList.takeWhile m.options.isBlank := by
      rw [String.toList_append, List.takeWhile_append, if_neg]
      intro hlen
      have happ := congrArg List.length hsplit
      rw [List.length_append, List.length_cons] at happ
      omega
    obtain ⟨hbefore, hfound⟩ := read_append hlog b
      (Text.byteSize (p.toList.takeWhile m.options.isBlank)) (ch :: cs) t.toList { consumer := s }
    rw [← Text.byteSize_append, hsplit] at hbefore
    rw [m.run_of_content hcs, m.run_of_content hcontent, hlead, ← List.cons_append,
      conclude_consumer, conclude_consumer]
    refine ⟨hbefore, fun stop e ch' hout he hch => ?_⟩
    obtain ⟨stop', c', hread, he'⟩ := error_of_conclude hout he
    rw [hfound hread he' hch, hread]
    exact ⟨rfl, m.conclude_outcome _ _ _⟩

end Machine

/-- A line and a longer one that begins with it have the same events before the point where they
part, whatever the table and whoever takes the events. If the first fails at a character, the second
has all its events and fails with the same error. -/
theorem reading_is_causal (m : Machine ρ σ) (p t : String) (s : σ) (r q : Report σ)
    (hr : m.Returns p s r) (hq : m.Returns (p ++ t) s q) :
    ∃ events events' : List Event,
      (m.withSink (Sink.both Sink.record m.sink)).Returns p (#[], s)
        (r.hand (events.toArray, r.consumer))
      ∧ (m.withSink (Sink.both Sink.record m.sink)).Returns (p ++ t) (#[], s)
        (q.hand (events'.toArray, q.consumer))
      ∧ eventsBefore p.utf8ByteSize events = eventsBefore p.utf8ByteSize events'
      ∧ ∀ stop e ch, r.outcome = .error stop → stop.error? = some e → e.found = some ch →
          events' = events ∧ q.outcome = r.outcome ∧ q.consumer = r.consumer := by
  obtain ⟨b₁, hb₁, hne⟩ := hr
  obtain ⟨b₂, hb₂, hne'⟩ := hq
  have hrun : m.run (max b₁ b₂) p s = r := by
    rw [m.run_mono (Nat.le_max_left b₁ b₂) (by rwa [hb₁]), hb₁]
  have hrun' : m.run (max b₁ b₂) (p ++ t) s = q := by
    rw [m.run_mono (Nat.le_max_right b₁ b₂) (by rwa [hb₂]), hb₂]
  obtain ⟨events, htee, -⟩ := m.run_both_record (max b₁ b₂) p s
  obtain ⟨events', htee', -⟩ := m.run_both_record (max b₁ b₂) (p ++ t) s
  obtain ⟨hsame, hfail⟩ := Machine.run_append
    (m := m.withSink (Sink.both Sink.record m.sink)) (Sink.both_record_logs m.sink)
    (max b₁ b₂) p t (#[], s)
  rw [hrun] at htee
  rw [hrun'] at htee'
  rw [htee, htee'] at hsame hfail
  refine ⟨events, events', ⟨_, htee, hne⟩, ⟨_, htee', hne'⟩, hsame, ?_⟩
  intro stop e ch hout he hfound
  obtain ⟨hconsumer, houtcome⟩ := hfail stop e ch hout he hfound
  simp only [Report.hand, Prod.mk.injEq] at hconsumer
  exact ⟨congrArg Array.toList hconsumer.1, houtcome, hconsumer.2⟩

/-- A parenthesis that closes nothing is the error of every line that goes on behind it. -/
theorem reading_is_causal_behind_paren :
    let m := Request.machine {} Sink.ignore
    let r := Request.run {} Sink.ignore "a=b)" ()
    let q := Request.run {} Sink.ignore ("a=b)" ++ "(c=[") ()
    m.Returns "a=b)" () r ∧ m.Returns ("a=b)" ++ "(c=[") () q
      ∧ q.outcome = .error (.failed ⟨.unexpectedCharacter, 3, .nodeName, some ')'⟩) := by
  intro m r q
  have hout : r.outcome = .error (.failed ⟨.unexpectedCharacter, 3, .nodeName, some ')'⟩) := by
    decide +kernel
  have hr : m.Returns "a=b)" () r := ⟨Request.bound, rfl, by rw [hout]; simp⟩
  have hq : m.Returns ("a=b)" ++ "(c=[") () q := ⟨Request.bound, rfl, by decide +kernel⟩
  obtain ⟨events, events', -, -, -, hfail⟩ := reading_is_causal m _ _ _ r q hr hq
  exact ⟨hr, hq, (hfail _ _ _ hout rfl rfl).2.1.trans hout⟩

end RequestLine
