import RequestLine.CommandLine
import RequestLine.Proofs.Causality

/-!
# Places in the line

Offsets are computed while the content of the line is read, behind the blanks that it begins with;
some are kept in a frame and only reported when the line ends. They are places between characters of
the line all the same: a step leaves behind no offset but that of the cursor and those that it found
(`Machine.pointsInto_upheld`), and the cursor only ever stands at such a place. An event tells the
truth about the character there (`Event.Among.trueOf`), and the caret of an error can be drawn. This
holds for every table and every sink.
-/

namespace RequestLine

variable {ρ σ : Type}

/-- The offset of the event is a place between characters of `cs`, and the character that it tells
of is the one that stands there. A state left without a character is left at the end. -/
def Event.TrueOf (cs : List Char) : Event → Prop
  | .entered _ n => (Text.splitAtByte? n cs).isSome
  | .character _ ch n => Text.charAt? n cs = some ch
  | .leaving _ n (some ch) => Text.charAt? n cs = some ch
  | .leaving _ n none => n = Text.byteSize cs

theorem Event.Among.trueOf {lead cs : List Char} {e : Event}
    (h : e.Among (Text.byteSize lead) cs) : e.TrueOf (lead ++ cs) := by
  obtain ⟨before, after, rfl, hstands⟩ := h
  rw [← Text.byteSize_append] at hstands
  rw [← List.append_assoc]
  cases e with
  | entered l n =>
    obtain rfl : n = _ := hstands
    simp only [TrueOf, Text.splitAtByte?_byteSize_append, Option.isSome_some]
  | character l ch n =>
    obtain ⟨hch, rfl⟩ := hstands
    simp only [TrueOf, Text.charAt?_byteSize_append, hch]
  | leaving l n closing =>
    obtain ⟨hch, rfl⟩ := hstands
    cases closing with
    | some ch => simp only [TrueOf, Text.charAt?_byteSize_append, hch]
    | none =>
      obtain rfl := List.head?_eq_none_iff.mp hch.symm
      simp only [TrueOf, List.append_nil]

namespace Machine

variable {P : Nat → Prop}

/-- The open states of the configuration were opened at places where `P` holds. -/
def OpenedAt (P : Nat → Prop) (c : Config ρ σ) : Prop :=
  ∀ t ∈ c.stack, P t.openedAt

/-- What a run leaves behind points at places where `P` holds: the states that are still open were
opened there, and so was what an error points at. -/
structure PointsInto (P : Nat → Prop) (r : EStateM.Result Stop (Config ρ σ) Unit) : Prop where
  opened : OpenedAt P (Run.final r)
  error : ∀ {stop e c}, r = .error stop c → stop.error? = some e → P e.offset

theorem PointsInto.of_ok {c : Config ρ σ} (h : OpenedAt P c) : PointsInto P (.ok () c) :=
  ⟨h, fun hr => by cases hr⟩

variable {m : Machine ρ σ}

theorem offset_of_diagnose {f : Fault} {c : Config ρ σ} {cause : Cause} {n : Nat}
    (h : m.diagnose c f = some (cause, n)) :
    n = c.offset ∨ n = (c.stack.head?.map Frame.openedAt).getD c.offset := by
  unfold diagnose at h
  cases f with
  | unexpectedCharacter | emptyRedirectTarget =>
    simp only [Option.some.injEq, Prod.mk.injEq] at h
    exact .inl h.2.symm
  | unterminatedQuote | missingCloseParen | emptyOperationName | danglingEscape =>
    simp only [Option.some.injEq, Prod.mk.injEq] at h
    exact .inr h.2.symm
  | unmatchedBracket =>
    simp only at h
    split at h
    · cases h
    · simp only [Option.some.injEq, Prod.mk.injEq] at h
      exact .inr h.2.symm

theorem OpenedAt.getD {c : Config ρ σ} (h : OpenedAt P c) (hc : P c.offset) :
    P ((c.stack.head?.map Frame.openedAt).getD c.offset) := by
  cases hst : c.stack with
  | nil => exact hc
  | cons top rest => exact h top (by rw [hst]; exact List.mem_cons_self)

/-- A machine points at its cursor or at what it has opened before. -/
theorem pointsInto_upheld (P : Nat → Prop) : m.Upheld fun c r =>
    (Run.final r).offset = c.offset ∧ (P c.offset → OpenedAt P c → PointsInto P r) where
  refl c := ⟨rfl, fun _ h => .of_ok h⟩
  trans h h' := ⟨h'.1.trans h.1, fun hc ho => h'.2 (h.1 ▸ hc) (h.2 hc ho).opened⟩
  exhausted c := ⟨rfl, fun _ h => ⟨h, fun hr he => by cases hr; cases he⟩⟩
  report {c e} _ := by
    unfold report
    split
    · exact ⟨rfl, fun _ h => .of_ok h⟩
    · refine ⟨rfl, fun hc h => ⟨h, fun hr he => ?_⟩⟩
      cases hr
      cases he
      exact hc
  fail f c := by
    unfold fail
    split
    · exact ⟨rfl, fun _ h => .of_ok h⟩
    · rename_i cause n hd
      refine ⟨rfl, fun hc h => ⟨h, fun hr he => ?_⟩⟩
      cases hr
      cases he
      rcases offset_of_diagnose hd with rfl | rfl
      · exact hc
      · exact h.getD hc
  handedBack c b := ⟨rfl, fun _ h => .of_ok h⟩
  top c f _ hf := by
    refine ⟨c.mapTop_offset f, fun _ h => .of_ok ?_⟩
    unfold Config.mapTop
    split
    · exact h
    · rename_i top rest hst
      intro t ht
      rcases List.mem_cons.mp ht with rfl | ht
      · rw [hf]
        exact h top (by rw [hst]; exact List.mem_cons_self)
      · exact h t (by rw [hst]; exact List.mem_cons_of_mem _ ht)
  push c s := by
    refine ⟨rfl, fun hc h => .of_ok fun t ht => ?_⟩
    rcases List.mem_cons.mp ht with rfl | ht
    · exact hc
    · exact h t ht
  pop c l := ⟨rfl, fun _ h => .of_ok fun t ht => h t (List.mem_of_mem_tail ht)⟩

/-- Reading characters leaves nothing behind that points elsewhere than at one of them. -/
theorem feed_pointsInto (b : Nat) : ∀ (n : Nat) (cs : List Char) (c : Config ρ σ),
    (∀ before after, cs = before ++ after → P (n + Text.byteSize before)) → OpenedAt P c →
      PointsInto P (m.feed b n cs c)
  | _, [], c, _, h => .of_ok h
  | n, ch :: cs, c, hP, h => by
    have hadvance : PointsInto P (m.advance b n ch c) :=
      ((pointsInto_upheld P).dispatch ((pointsInto_upheld P).handle b)
        { c with offset := n, cursor := some ch }).2 (hP [] (ch :: cs) rfl) h
    simp only [feed, Run.bind_apply]
    rcases ha : m.advance b n ch c with ⟨_, c₁⟩ | ⟨stop, c₁⟩ <;> rw [ha] at hadvance
    · refine feed_pointsInto b (n + ch.utf8Size) cs c₁ (fun before after hcs => ?_) hadvance.opened
      have hat := hP (ch :: before) after (by rw [hcs, List.cons_append])
      rwa [Text.byteSize_cons, ← Nat.add_assoc] at hat
    · exact hadvance

theorem read_pointsInto (b n : Nat) (cs : List Char) (s : σ)
    (hP : ∀ before after, cs = before ++ after → P (n + Text.byteSize before)) :
    PointsInto P (m.read b n cs { consumer := s }) := by
  have hfeed : PointsInto P (m.feed b n cs { consumer := s }) :=
    feed_pointsInto b n cs _ hP (by simp [OpenedAt])
  simp only [read, Run.bind_apply]
  rcases hf : m.feed b n cs { consumer := s } with ⟨_, c₁⟩ | ⟨stop, c₁⟩ <;> rw [hf] at hfeed
  · exact ((pointsInto_upheld P).closeAll b b
      { c₁ with offset := n + Text.byteSize cs, cursor := none, handedBack := false }).2
        (hP cs [] (List.append_nil cs).symm) hfeed.opened
  · exact hfeed

/-- An error points at a character of the line behind the blanks that it begins with, or at its
end. -/
theorem run_points (m : Machine ρ σ) (b : Nat) (line : String) (s : σ) {stop : Stop}
    {e : ParseError} (h : (m.run b line s).outcome = .error stop) (he : stop.error? = some e) :
    ∃ before after, line.toList = before ++ after ∧ e.offset = Text.byteSize before
      ∧ Text.byteSize (line.toList.takeWhile m.options.isBlank) ≤ e.offset := by
  have hsplit := List.takeWhile_append_dropWhile (p := m.options.isBlank) (l := line.toList)
  rcases hcs : line.toList.dropWhile m.options.isBlank with _ | ⟨ch, cs⟩
  · rw [m.run_of_blank hcs] at h
    cases h
  · rw [m.run_of_content hcs] at h
    obtain ⟨stop', c, hread, he'⟩ := error_of_conclude h he
    let lead := line.toList.takeWhile m.options.isBlank
    have hpoints : PointsInto (fun n => ∃ before after, line.toList = before ++ after
        ∧ n = Text.byteSize before ∧ Text.byteSize lead ≤ n)
        (m.read b (Text.byteSize lead) (ch :: cs) { consumer := s }) := by
      refine read_pointsInto b _ _ s fun before after hba => ?_
      refine ⟨lead ++ before, after, ?_, (Text.byteSize_append _ _).symm, Nat.le_add_right _ _⟩
      rw [List.append_assoc, ← hba, ← hcs, hsplit]
    exact hpoints.error hread he'

end Machine

/-- The caret of an error stands under the character that the error points at. -/
theorem CommandLine.caret_of_split {line : String} {e : ParseError} {before after : List Char}
    (h : Text.splitAtByte? e.offset line.toList = some (before, after)) :
    caret line e = String.ofList (List.replicate before.length ' ') ++ "^ " ++ e.message := by
  simp only [caret, Text.column?, h, Option.map_some, Option.getD_some]

/-- Whatever the table, the options and the sink: the events that a run offers never go back, every
one of them tells the truth about the line, and none stands among the blanks that the line begins
with. An error points at a place between characters of the line behind those blanks, so the line can
be cut there and the caret has a column. -/
theorem locations_are_truthful (m : Machine ρ σ) (line : String) (s : σ) (r : Report σ)
    (hr : m.Returns line s r) :
    ∃ events : List Event,
      (m.withSink (Sink.both Sink.record m.sink)).Returns line (#[], s)
        (r.hand (events.toArray, r.consumer))
      ∧ events.Pairwise (·.offset ≤ ·.offset)
      ∧ (∀ e ∈ events, e.TrueOf line.toList
        ∧ Text.byteSize (line.toList.takeWhile m.options.isBlank) ≤ e.offset)
      ∧ ∀ stop e, r.outcome = .error stop → stop.error? = some e →
        ∃ before after, Text.splitAtByte? e.offset line.toList = some (before, after)
          ∧ Text.byteSize (line.toList.takeWhile m.options.isBlank) ≤ e.offset
          ∧ e.offset ≤ line.utf8ByteSize
          ∧ Text.column? e.offset line.toList = some before.length
          ∧ CommandLine.caret line e
            = String.ofList (List.replicate before.length ' ') ++ "^ " ++ e.message := by
  obtain ⟨b, hb, hne⟩ := hr
  obtain ⟨events, htee, -⟩ := m.run_both_record b line s
  obtain ⟨es, hes, halong⟩ := Machine.run_events
    (m := m.withSink (Sink.both Sink.record m.sink)) (Sink.both_record_logs m.sink) b line (#[], s)
  have hevents : es = events := by
    rw [htee] at hes
    simpa [Report.hand] using hes.symm
  subst hevents
  rw [hb] at htee
  refine ⟨es, ⟨b, htee, hne⟩, halong.sorted, fun e he => ?_, fun stop e hout he => ?_⟩
  · have htrue := (halong.among e he).trueOf
    rw [List.takeWhile_append_dropWhile] at htrue
    exact ⟨htrue, (halong.among e he).le_offset⟩
  · rw [← hb] at hout
    obtain ⟨before, after, hline, hoffset, hlead⟩ := m.run_points b line s hout he
    have hcut : Text.splitAtByte? e.offset line.toList = some (before, after) :=
      Text.splitAtByte?_eq_some_iff.mpr ⟨hline, hoffset⟩
    have hend : e.offset ≤ line.utf8ByteSize := by
      rw [← Text.byteSize_toList, hline, Text.byteSize_append]
      omega
    refine ⟨before, after, hcut, hlead, hend, ?_, CommandLine.caret_of_split hcut⟩
    simp only [Text.column?, hcut, Option.map_some]

/-- The list that is still open at the end of the line was opened behind a blank and three
characters, of which one takes two bytes. -/
theorem locations_are_truthful_of_open_list :
    let m := Request.machine {} Sink.ignore
    let line := " :é(p"
    let r := Request.run {} Sink.ignore line ()
    m.Returns line () r
      ∧ ∃ e, r.outcome = .error (.failed e) ∧ e.offset = 4
        ∧ Text.column? e.offset line.toList = some 3 := by
  intro m line r
  have hout : r.outcome = .error (.failed ⟨.missingCloseParen, 4, .propertyList, none⟩) := by
    decide +kernel
  have hr : m.Returns line () r := ⟨Request.bound, rfl, by rw [hout]; simp⟩
  obtain ⟨events, -, -, -, herror⟩ := locations_are_truthful m line () r hr
  obtain ⟨before, after, hcut, -, -, hcolumn, -⟩ := herror _ _ hout rfl
  have hbefore : before = [' ', ':', 'é'] := by
    have hcut' : Text.splitAtByte? 4 line.toList = some ([' ', ':', 'é'], ['(', 'p']) := by
      decide +kernel
    rw [hcut'] at hcut
    cases hcut
    rfl
  refine ⟨hr, _, hout, rfl, ?_⟩
  rw [hcolumn, hbefore]
  rfl

end RequestLine
