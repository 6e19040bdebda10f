import RequestLine.Proofs.Causality
import RequestLine.Proofs.Parts

/-!
# The work for a line

Tables can be written that never settle, so that a request line is read to its end is a fact about
its grammar. At every place the actions of a character nest no deeper than `Request.bound`, and a
character causes four events at most: a parenthesis that closes a value, its property and the list,
and opens what comes after it (`Place.length_next`). The end of a line closes three states at most
(`Place.length_finish`). A sink that refuses an event only makes a run shorter, so the bounds hold
whoever takes the events.
-/

namespace RequestLine

variable {ρ σ τ : Type}

namespace Place

variable (o : Options) (n : Nat) (ch : Char)

theorem length_after (es : List Event) (move : Move) :
    (after es move).1.length = es.length + move.1.length :=
  List.length_append

theorem length_endSegment : (endSegment n ch).1.length = 2 := by
  unfold endSegment
  dsimp only
  split_ifs <;> rfl

theorem length_endProperty (f : Opening) : (endProperty n ch f).1.length ≤ 3 := by
  unfold endProperty
  dsimp only
  split_ifs
  · exact Nat.le_succ 2
  · exact Nat.le_refl 3

/-- A mark closes what is open around the text and opens one more state, if it does as much. -/
theorem length_onMark (w : Owner) : (onMark n ch w).1.length ≤ w.stack.length + 1 := by
  cases w with
  | node f =>
    have := length_endSegment n ch
    simp only [onMark, Owner.stack, List.length_singleton]
    split_ifs
    · simp
    · simp [unexpected]
    · omega
  | nodeName f g =>
    have := length_endSegment n ch
    simp only [onMark, Owner.stack, List.length_cons, List.length_nil]
    split_ifs
    · simp [unexpected]
    · simp [unexpected]
    · rw [length_after, List.length_singleton]
      omega
  | property f g =>
    have := length_endProperty n ch f
    simp only [onMark, Owner.stack, List.length_cons, List.length_nil]
    split_ifs
    · simp
    · omega
  | propertyValue f g v =>
    have := length_endProperty n ch f
    simp only [onMark, Owner.stack, List.length_cons, List.length_nil]
    split
    · simp
    · rw [length_after, List.length_singleton]
      omega

theorem length_onText (w : Owner) : (onText o n ch w).1.length ≤ w.stack.length + 1 := by
  unfold onText
  split_ifs
  · simp
  · simp
  · simp
  · exact length_onMark n ch w
  · simp

theorem length_onTarget (f g : Opening) : (onTarget o n ch f g).1.length ≤ 1 := by
  unfold onTarget
  split_ifs <;> simp

theorem length_endOperation {f : Opening} {l : Label} {q : Place} :
    (endOperation n ch f l q).1.length ≤ 2 := by
  unfold endOperation
  dsimp only
  split_ifs <;> simp

theorem length_onOperation (f : Opening) : (onOperation o n ch f).1.length ≤ 2 := by
  unfold onOperation
  dsimp only
  split_ifs
  · simp
  · exact length_endOperation n ch
  · exact length_endOperation n ch
  · simp [unexpected]
  · simp

/-- A character causes four events at most. -/
theorem length_next (p : Place) : (p.next o n ch).1.length ≤ 4 := by
  cases p with
  | start =>
    have hnode := length_onText o n ch (.node { offset := n, opener := ch })
    simp only [Owner.stack, List.length_singleton] at hnode
    simp only [next]
    split_ifs
    · simp
    · simp
    · simp
    · simp
    · simp
    · rw [length_after, List.length_singleton]
      omega
  | text w s =>
    cases s with
    | none =>
      have hstack : w.stack.length ≤ 3 := by cases w <;> simp [Owner.stack]
      have := length_onText o n ch w
      simp only [next]
      omega
    | escape e => simp [next, onEscaped]
    | quotes q =>
      simp only [next, onQuoted]
      split_ifs <;> simp
    | quotesEscape q e => simp [next, onEscaped]
  | literal f g v b k depth =>
    simp only [next, onLiteral]
    split_ifs <;> simp
  | operation f =>
    have := length_onOperation o n ch f
    simp only [next]
    omega
  | list f =>
    have hproperty := length_onText o n ch
      (.property f { offset := n, opener := ch })
    simp only [Owner.stack, List.length_cons, List.length_nil] at hproperty
    simp only [next]
    split_ifs
    · simp
    · simp [endList]
    · rw [length_after, List.length_singleton]
      omega
  | requestEnd f =>
    simp only [next]
    split_ifs <;> simp [unexpected]
  | redirect f =>
    have htarget := length_onTarget o n ch f { offset := n, opener := ch }
    simp only [next]
    split_ifs
    · simp
    · simp [unexpected]
    · rw [length_after, List.length_singleton]
      omega
  | target f g =>
    have := length_onTarget o n ch f g
    simp only [next]
    omega

example (f g v : Opening) : ((text (.propertyValue f g v) .none).next {} n ')').1.length = 4 := rfl

/-- The end of the line causes three events at most. -/
theorem length_finish (p : Place) : (p.finish o n).1.length ≤ 3 := by
  cases p with
  | text w s => cases s <;> cases w <;> simp [finish, finishText, finishList, cutOff]
  | literal f g v b k depth =>
    simp only [finish]
    split_ifs <;> simp [finishList, cutOff]
  | target f g =>
    simp only [finish]
    split_ifs <;> simp [cutOff]
  | _ => simp [finish, finishList, cutOff]

theorem length_read (p : Place) (cs : List Char) :
    (p.read o n cs).1.length ≤ 4 * cs.length + 3 := by
  induction cs generalizing n p with
  | nil =>
    have := length_finish o n p
    simpa [read, feed, delay] using this
  | cons ch cs ih =>
    have hstep := length_next o n ch p
    rw [List.length_cons]
    rcases hnext : p.next o n ch with ⟨es, e | q⟩ <;> rw [hnext] at hstep
    · rw [read_cons_of_error hnext]
      simp only at hstep ⊢
      omega
    · have hrest := ih (n + ch.utf8Size) q
      rw [read_cons hnext]
      simp only [delay, List.length_append] at hstep ⊢
      omega

/-- A step that goes as a move says settles, with no more events than the move has. -/
theorem Follows.settles {r : EStateM.Result Stop Conf Unit} {move : Move} {k : Nat}
    (h : Follows [] r move) (hk : move.1.length ≤ k) :
    (∀ c, r ≠ .error .exhausted c) ∧ (Run.final r).consumer.size ≤ k := by
  cases h with
  | moved h => exact ⟨fun c hc => (by cases hc), (congrArg List.length h.events).trans_le hk⟩
  | failed h => exact ⟨fun c hc => (by cases hc), (congrArg List.length h).trans_le hk⟩

theorem Ends.settles {r : EStateM.Result Stop Conf Unit} {ending : Ending} {k : Nat}
    (h : Ends [] r ending) (hk : ending.1.length ≤ k) :
    (∀ c, r ≠ .error .exhausted c) ∧ (Run.final r).consumer.size ≤ k := by
  cases h with
  | accepted h => exact ⟨fun c hc => (by cases hc), (congrArg List.length h).trans_le hk⟩
  | rejected h => exact ⟨fun c hc => (by cases hc), (congrArg List.length h).trans_le hk⟩

end Place

namespace Machine

/-- A step with any sink settles where the recording one does, and offers no more events. -/
theorem MirrorsAt.settles {m : Machine ρ Unit} {y : Run ρ (Array Event) Unit}
    {x : (σ : Type) → Sink σ → σ → Run ρ σ Unit} {S : Sink σ} {log : σ → List Event}
    {c : Config ρ σ} {k : Nat} (h : m.MirrorsAt y x (c.hand #[])) (hlog : S.Logs log)
    (hy : (∀ d, y (c.hand #[]) ≠ .error .exhausted d)
      ∧ (Run.final (y (c.hand #[]))).consumer.size ≤ k) :
    (∀ d, x σ S c.consumer c ≠ .error .exhausted d)
      ∧ (log (Run.final (x σ S c.consumer c)).consumer).length ≤ (log c.consumer).length + k := by
  obtain ⟨hsettles, hsize⟩ := hy
  obtain ⟨offers, hr, -, hs⟩ := h
  have hoffers : offers.length ≤ k := by
    rw [← Array.length_toList, hr] at hsize
    simpa [Config.hand] using hsize
  rcases hs σ S c.consumer with ⟨s', ht, hx⟩ | ⟨taken, e, rest, s₁, reason, s₂, rfl, ht, he, hx⟩
  · replace hx : x σ S c.consumer c = Run.handed (y (c.hand #[])) s' := hx
    have hnew : (log s').length ≤ (log c.consumer).length + k := by
      rw [hlog.takes ht, List.length_append, List.length_map]
      exact Nat.add_le_add_left hoffers _
    rw [hx]
    rcases hend : y (c.hand #[]) with ⟨_, d⟩ | ⟨stop, d⟩
    · exact ⟨fun d hd => (by cases hd), hnew⟩
    · refine ⟨fun d' hd => hsettles d ?_, hnew⟩
      rw [hend]
      cases hd
      rfl
  · replace hx : x σ S c.consumer c
        = .error (.failed (m.errorAt e.2 (.rejected reason) e.2.offset)) (e.2.hand s₂) := hx
    have hlast := hlog e.1 s₁
    rw [he] at hlast
    rw [hx]
    refine ⟨fun d hd => (by cases hd), ?_⟩
    simp only [List.length_append, List.length_cons] at hoffers
    simp only [Run.final, Config.hand, hlast, hlog.takes ht, List.length_append, List.length_map,
      List.length_singleton]
    omega

end Machine

namespace Request

variable {o : Options} {S : Sink σ} {log : σ → List Event} {c : Config Label σ} {p : Place}

/-- At a place, a character is done with within the bound and after four events. -/
theorem advance_settles (hlog : S.Logs log) (hstack : c.stack = p.stack)
    (hback : c.handedBack = false) (n : Nat) (ch : Char) :
    (∀ d, (Request.machine o S).advance Request.bound n ch c ≠ .error .exhausted d)
      ∧ (log (Run.final ((Request.machine o S).advance Request.bound n ch c)).consumer).length
        ≤ (log c.consumer).length + 4 := by
  have hat : Place.At p [] (c.hand #[] : Place.Conf) := ⟨hstack, hback, rfl⟩
  have hmirror := Machine.advance_mirroring (m := Request.machine o Sink.ignore) Request.bound n ch
    (c.hand #[])
  exact Machine.MirrorsAt.settles hmirror hlog
    ((Place.advance_follows (o := o) hat n ch).settles (p.length_next o n ch))

theorem finish_settles (hlog : S.Logs log) (hstack : c.stack = p.stack)
    (hback : c.handedBack = false) (n : Nat) :
    (∀ d, (Request.machine o S).finish Request.bound n c ≠ .error .exhausted d)
      ∧ (log (Run.final ((Request.machine o S).finish Request.bound n c)).consumer).length
        ≤ (log c.consumer).length + 3 := by
  have hat : Place.At p [] (c.hand #[] : Place.Conf) := ⟨hstack, hback, rfl⟩
  have hmirror := Machine.finish_mirroring (m := Request.machine o Sink.ignore) Request.bound n
    (c.hand #[])
  exact Machine.MirrorsAt.settles hmirror hlog
    ((Place.finish_follows (o := o) hat n).settles (p.length_finish o n))

/-- A request line is always read to its end or to an error. -/
theorem run_returns (o : Options) (S : Sink σ) (line : String) (s : σ) :
    (Request.machine o S).Returns line s (Request.run o S line s) := by
  refine ⟨Request.bound, rfl, ?_⟩
  obtain ⟨offered, -, -, hend⟩ := (Request.machine o S).run_both_record Request.bound line s
  rcases hend with ⟨-, -, hout⟩ | ⟨taken, e, s₁, reason, s₂, notes, -, -, -, hx⟩
  · replace hout : (Request.run o S line s).outcome
        = (Request.run o Sink.record line #[]).outcome := hout
    rw [hout, (Request.run_record o line).2]
    intro hverdict
    obtain ⟨e, -, hstop⟩ := Place.verdict_eq_error_iff.mp hverdict
    split at hstop <;> cases hstop
  · replace hx : Request.run o S line s = _ := hx
    rw [hx]
    simp only [Machine.conclude]
    split <;> simp

end Request

/-- A request line is read with bounded work, whoever takes its events. Wherever the reading of a
line has come, the next character is done with by actions that nest no deeper than `Request.bound`
and after four events at most, and the end of the line, too, within the bound and after three. So
every line is read to its end or to an error, with no more events than that allows. -/
theorem request_line_takes_bounded_work (o : Options) (S : Sink σ) (s : σ) :
    let m := Request.machine o (Sink.both Sink.record S)
    (∀ (bound n : Nat) (cs : List Char) (c : Config Label (Array Event × σ)),
      m.feed bound n cs { consumer := (#[], s) } = .ok () c → ∀ k : Nat,
        (∀ ch, (∀ d, m.advance Request.bound k ch c ≠ .error .exhausted d)
          ∧ (Run.final (m.advance Request.bound k ch c)).consumer.1.size
            ≤ c.consumer.1.size + 4)
        ∧ (∀ d, m.finish Request.bound k c ≠ .error .exhausted d)
        ∧ (Run.final (m.finish Request.bound k c)).consumer.1.size ≤ c.consumer.1.size + 3)
    ∧ ∀ line : String, (Request.machine o S).Returns line s (Request.run o S line s)
      ∧ ∃ offered : List Event,
        Request.run o (Sink.both Sink.record S) line (#[], s)
            = (Request.run o S line s).hand (offered.toArray, (Request.run o S line s).consumer)
          ∧ offered.length ≤ 4 * line.length + 3 := by
  intro m
  have hlog := Sink.both_record_logs S
  refine ⟨fun bound n cs c hfeed k => ?_, fun line => ⟨Request.run_returns o S line s, ?_⟩⟩
  · obtain ⟨es, p, -, hstack, hback⟩ := Request.place_of_feed o _ hfeed
    exact ⟨fun ch => Request.advance_settles hlog hstack hback k ch,
      Request.finish_settles hlog hstack hback k⟩
  · obtain ⟨offered, htee, hprefix, -⟩ :=
      (Request.machine o S).run_both_record Request.bound line s
    replace hprefix : offered <+: (Request.run o Sink.record line #[]).consumer.toList := hprefix
    refine ⟨offered, htee, hprefix.length_le.trans ?_⟩
    rw [(Request.run_record o line).1, ← String.length_toList]
    exact Place.length_read o 0 .start line.toList

/-- The parenthesis that closes a value, its property and the list, and nobody who takes events. -/
theorem bounded_work_at_paren : ∃ c : Config Label (Array Event × Unit),
    (Request.machine {} (Sink.both Sink.record Sink.ignore)).feed 7 0 ['(', 'a', '=', 'b']
        { consumer := (#[], ()) } = .ok () c
      ∧ (Run.final ((Request.machine {} (Sink.both Sink.record Sink.ignore)).advance Request.bound
        4 ')' c)).consumer.1.size ≤ c.consumer.1.size + 4 := by
  have hfeed : ∃ c : Config Label (Array Event × Unit),
      (Request.machine {} (Sink.both Sink.record Sink.ignore)).feed 7 0 ['(', 'a', '=', 'b']
        { consumer := (#[], ()) } = .ok () c := ⟨_, rfl⟩
  obtain ⟨c, hc⟩ := hfeed
  exact ⟨c, hc, (((request_line_takes_bounded_work {} Sink.ignore ()).1 7 0 _ c hc 4).1 ')').2⟩

end RequestLine
