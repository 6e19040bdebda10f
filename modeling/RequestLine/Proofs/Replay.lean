import RequestLine.Proofs.Running

/-!
# What a sink can do to a run

A sink sees the events of a run and can stop it by refusing one, and that is all it can do. The
run with any sink is the recording run of the same machine, replayed into the sink up to the first
refusal (`Machine.read_mirroring`): as long as the sink takes what it is offered, both runs have the
same configurations apart from their consumers, and a refusal is reported at the event that was
refused.
-/

namespace RequestLine

variable {ρ σ τ α : Type}

/-- The configuration with another consumer. -/
def Config.hand (c : Config ρ τ) (s : σ) : Config ρ σ :=
  { c with consumer := s }

/-- How a run ended, with another consumer. -/
def Run.handed (r : EStateM.Result Stop (Config ρ τ) α) (s : σ) :
    EStateM.Result Stop (Config ρ σ) α :=
  match r with
  | .ok a c => .ok a (c.hand s)
  | .error e c => .error e (c.hand s)

namespace Sink

/-- The sink takes the events `es` one after the other, from the state `s` to `s'`. -/
def Takes (S : Sink σ) (es : List Event) (s s' : σ) : Prop :=
  es.forM S s = .ok () s'

theorem Takes.nil (S : Sink σ) (s : σ) : S.Takes [] s s := rfl

theorem takes_cons_iff {S : Sink σ} {e : Event} {es : List Event} {s s' : σ} :
    S.Takes (e :: es) s s' ↔ ∃ t, S e s = .ok () t ∧ S.Takes es t s' := by
  unfold Takes
  change (S e >>= fun _ => es.forM S) s = .ok () s' ↔ _
  simp only [bind, EStateM.bind]
  rcases S e s with ⟨_, t⟩ | ⟨reason, t⟩ <;> simp

theorem Takes.append {S : Sink σ} : ∀ {es es' : List Event} {s t s' : σ},
    S.Takes es s t → S.Takes es' t s' → S.Takes (es ++ es') s s'
  | [], _, s, t, s', h, h' => by
    obtain rfl : s = t := by simpa [Takes, List.forM, pure, EStateM.pure] using h
    exact h'
  | e :: es, _, s, t, s', h, h' => by
    obtain ⟨u, hu, h⟩ := takes_cons_iff.1 h
    exact takes_cons_iff.2 ⟨u, hu, h.append h'⟩

end Sink

/-- A step of a run that takes any sink. -/
abbrev Run.ForSinks (ρ : Type) :=
  (σ : Type) → Sink σ → Run ρ σ Unit

namespace Machine

def withSink (m : Machine ρ σ) (S : Sink τ) : Machine ρ τ :=
  { m with sink := S }

/-- The machine with the sink that writes every event down. -/
def recording (m : Machine ρ σ) : Machine ρ (Array Event) :=
  m.withSink Sink.record

variable (m : Machine ρ Unit)

/-- The run `x`, with any sink, replays the recording run `y` from the configuration `c`: there
are offers, each an event with the configuration it concerns, which the recording run writes down
and which a sink either takes, and then both runs end alike, or takes up to one that it refuses, at
which its run ends. -/
def MirrorsAt (y : Run ρ (Array Event) Unit) (x : (σ : Type) → Sink σ → σ → Run ρ σ Unit)
    (c : Config ρ (Array Event)) : Prop :=
  ∃ offers : List (Event × Config ρ Unit),
    (Run.final (y c)).consumer.toList = c.consumer.toList ++ offers.map Prod.fst
    ∧ (∀ o ∈ offers, m.Concerns o.2 o.1)
    ∧ ∀ (σ : Type) (S : Sink σ) (s : σ),
      (∃ s', S.Takes (offers.map Prod.fst) s s' ∧ x σ S s (c.hand s) = Run.handed (y c) s')
      ∨ ∃ taken o rest s₁ reason s₂, offers = taken ++ o :: rest
        ∧ S.Takes (taken.map Prod.fst) s s₁ ∧ S o.1 s₁ = .error reason s₂
        ∧ x σ S s (c.hand s)
          = .error (.failed (m.errorAt o.2 (.rejected reason) o.2.offset)) (o.2.hand s₂)

def Mirroring (y : Run ρ (Array Event) Unit) (x : Run.ForSinks ρ) : Prop :=
  ∀ c, m.MirrorsAt y (fun σ S _ => x σ S) c

variable {m}

theorem MirrorsAt.quiet {y : Run ρ (Array Event) Unit}
    {x : (σ : Type) → Sink σ → σ → Run ρ σ Unit} {c : Config ρ (Array Event)}
    (hc : (Run.final (y c)).consumer = c.consumer)
    (hx : ∀ σ S s, x σ S s (c.hand s) = Run.handed (y c) s) : m.MirrorsAt y x c := by
  refine ⟨[], by rw [hc]; simp, by simp, fun σ S s => .inl ⟨s, .nil S s, hx σ S s⟩⟩

theorem MirrorsAt.bind {y y' : Run ρ (Array Event) Unit}
    {x : (σ : Type) → Sink σ → σ → Run ρ σ Unit} {x' : Run.ForSinks ρ}
    {c : Config ρ (Array Event)} (h : m.MirrorsAt y x c) (h' : m.Mirroring y' x') :
    m.MirrorsAt (y >>= fun _ => y') (fun σ S s => x σ S s >>= fun _ => x' σ S) c := by
  obtain ⟨offers, hr, hcon, hs⟩ := h
  unfold MirrorsAt
  simp only [Run.bind_apply]
  rcases hy : y c with ⟨_, c'⟩ | ⟨stop, c'⟩ <;> rw [hy] at hr hs
  · obtain ⟨offers', hr', hcon', hs'⟩ := h' c'
    refine ⟨offers ++ offers', ?_, ?_, fun σ S s => ?_⟩
    · simp only [Run.final] at hr hr' ⊢
      rw [hr', hr, List.map_append, List.append_assoc]
    · exact fun o ho => (List.mem_append.1 ho).elim (hcon o) (hcon' o)
    · rcases hs σ S s with ⟨s', ht, hx⟩ | ⟨taken, o, rest, s₁, reason, s₂, rfl, ht, ho, hx⟩
      · simp only [hx, Run.handed]
        rcases hs' σ S s' with ⟨s'', ht', hx'⟩ | ⟨taken, o, rest, s₁, reason, s₂, rfl, ht', ho, hx'⟩
        · exact .inl ⟨s'', by rw [List.map_append]; exact ht.append ht', hx'⟩
        · refine .inr ⟨offers ++ taken, o, rest, s₁, reason, s₂, by simp, ?_, ho, hx'⟩
          rw [List.map_append]
          exact ht.append ht'
      · exact .inr ⟨taken, o, rest ++ offers', s₁, reason, s₂, by simp, ht, ho, by rw [hx]⟩
  · refine ⟨offers, hr, hcon, fun σ S s => ?_⟩
    rcases hs σ S s with ⟨s', ht, hx⟩ | ⟨taken, o, rest, s₁, reason, s₂, rfl, ht, ho, hx⟩
    · exact .inl ⟨s', ht, by rw [hx]; rfl⟩
    · exact .inr ⟨taken, o, rest, s₁, reason, s₂, rfl, ht, ho, by rw [hx]⟩

theorem Mirroring.bind {y y' : Run ρ (Array Event) Unit} {x x' : Run.ForSinks ρ}
    (h : m.Mirroring y x) (h' : m.Mirroring y' x') :
    m.Mirroring (y >>= fun _ => y') (fun σ S => x σ S >>= fun _ => x' σ S) :=
  fun c => (h c).bind h'

theorem Mirroring.pure : m.Mirroring (Pure.pure ()) (fun _ _ => Pure.pure ()) :=
  fun _ => .quiet rfl fun _ _ _ => rfl

theorem Mirroring.get {f : Config ρ (Array Event) → Run ρ (Array Event) Unit}
    {g : (σ : Type) → Sink σ → Config ρ σ → Run ρ σ Unit}
    (h : ∀ c, m.MirrorsAt (f c) (fun σ S s => g σ S (c.hand s)) c) :
    m.Mirroring (MonadState.get >>= f) (fun σ S => MonadState.get >>= g σ S) :=
  h

theorem Mirroring.modify {f : Config ρ (Array Event) → Config ρ (Array Event)}
    {g : (σ : Type) → Sink σ → Config ρ σ → Config ρ σ}
    (hf : ∀ c, (f c).consumer = c.consumer)
    (h : ∀ σ S (c : Config ρ (Array Event)) (s : σ), g σ S (c.hand s) = (f c).hand s) :
    m.Mirroring (modifyGet fun c => ((), f c)) (fun σ S => modifyGet fun c => ((), g σ S c)) := by
  intro c
  refine .quiet (hf c) fun σ S s => ?_
  change EStateM.Result.ok () (g σ S (c.hand s)) = .ok () ((f c).hand s)
  rw [h]

theorem Mirroring.forM {f : α → Run ρ (Array Event) Unit} {g : α → Run.ForSinks ρ}
    (h : ∀ a, m.Mirroring (f a) (g a)) :
    ∀ as : List α, m.Mirroring (as.forM f) (fun σ S => as.forM fun a => g a σ S)
  | [] => .pure
  | a :: as => (h a).bind (Mirroring.forM h as)

theorem MirrorsAt.set {y : Run ρ (Array Event) Unit}
    {x : (σ : Type) → Sink σ → σ → Run ρ σ Unit} {c c' : Config ρ (Array Event)}
    (hc : c'.consumer = c.consumer) (h : m.MirrorsAt y x c') :
    m.MirrorsAt (MonadStateOf.set c' >>= fun _ => y)
      (fun σ S s => MonadStateOf.set (c'.hand s) >>= fun _ => x σ S s) c := by
  unfold MirrorsAt at h ⊢
  rw [hc] at h
  exact h

theorem mapTop_hand (f : Frame ρ → Frame ρ) (c : Config ρ τ) (s : σ) :
    (c.hand s).mapTop f = (c.mapTop f).hand s := by
  obtain ⟨_ | ⟨top, rest⟩, _, _, _, _, _⟩ := c <;> rfl

/-- An event that concerns the configuration is recorded in one run, and offered to the sink in
the other. -/
theorem report_mirrorsAt {e : Event} {c : Config ρ (Array Event)}
    (he : m.Concerns (c.hand ()) e) :
    m.MirrorsAt (m.recording.report e) (fun _ S _ => (m.withSink S).report e) c := by
  refine ⟨[(e, c.hand ())], Array.toList_push, by simpa using he, fun σ S s => ?_⟩
  have hsink : (m.withSink S).sink e (c.hand s).consumer = S e s := rfl
  rcases hs : S e s with ⟨_, t⟩ | ⟨reason, t⟩
  · have hrep : (m.withSink S).report e (c.hand s) = .ok () (c.hand t) := by
      simp only [report, hsink, hs]
      rfl
    exact .inl ⟨t, Sink.takes_cons_iff.2 ⟨t, hs, .nil S t⟩, hrep⟩
  · have hrep : (m.withSink S).report e (c.hand s)
        = .error (.failed (m.errorAt (c.hand ()) (.rejected reason) c.offset)) (c.hand t) := by
      simp only [report, hsink, hs]
      rfl
    exact .inr ⟨[], _, [], s, reason, t, rfl, .nil S s, hs, hrep⟩

theorem fail_mirroring (f : Fault) :
    m.Mirroring (m.recording.fail f) (fun _ S => (m.withSink S).fail f) := by
  intro c
  have hd : ∀ (σ : Type) (S : Sink σ) (s : σ),
      (m.withSink S).diagnose (c.hand s) f = m.recording.diagnose c f := fun _ _ _ => rfl
  rcases h : m.recording.diagnose c f with _ | ⟨cause, offset⟩
  · refine .quiet ?_ fun σ S s => ?_
    · simp only [fail, h, Run.final]
    · simp only [fail, hd, h, Run.handed]
  · refine .quiet ?_ fun σ S s => ?_
    · simp only [fail, h, Run.final]
    · simp only [fail, hd, h, Run.handed]
      rfl

theorem forward_mirroring :
    m.Mirroring m.recording.forward (fun _ S => (m.withSink S).forward) := by
  refine .get fun c => ?_
  have hcur : ∀ (σ : Type) (s : σ), (c.hand s).cursor = c.cursor := fun _ _ => rfl
  rcases hc : c.cursor with _ | ch
  · simp only [hcur, hc]
    exact Mirroring.pure c
  · simp only [hcur, hc, mapTop_hand]
    refine .set (Config.mapTop_consumer _ c) (report_mirrorsAt ?_)
    rw [← mapTop_hand]
    exact m.concerns_character_mapTop (f := fun t => { t with forwarded := t.forwarded + 1 })
      (fun _ => rfl) hc

section Steps

variable {selfR : Action ρ → Run ρ (Array Event) Unit} {self : Action ρ → Run.ForSinks ρ}

theorem dispatch_mirroring (h : ∀ a, m.Mirroring (selfR a) (self a)) :
    m.Mirroring (m.recording.dispatch selfR)
      (fun σ S => (m.withSink S).dispatch fun a => self a σ S) := by
  refine .get fun c => ?_
  have hcur : ∀ (σ : Type) (s : σ), (c.hand s).cursor = c.cursor := fun _ _ => rfl
  have hskip : ∀ (σ : Type) (S : Sink σ) (s : σ) (ch : Char),
      ((m.withSink S).options.isBlank ch && (m.withSink S).skipsBlanks (c.hand s))
        = (m.recording.options.isBlank ch && m.recording.skipsBlanks c) := fun _ _ _ _ => rfl
  rcases hc : c.cursor with _ | ch
  · simp only [hcur, hc]
    exact Mirroring.pure c
  · simp only [hcur, hc, hskip]
    split
    · exact Mirroring.pure c
    · exact h _ c

theorem enter_mirroring (h : ∀ a, m.Mirroring (selfR a) (self a)) (t : ρ) :
    m.Mirroring (m.recording.enter selfR t)
      (fun σ S => (m.withSink S).enter (fun a => self a σ S) t) := by
  refine .get fun c => (report_mirrorsAt ?_).bind (.bind (.modify ?_ ?_) (h _))
  · exact rfl
  · exact fun _ => rfl
  · exact fun _ _ _ _ => rfl

theorem returned_mirroring (h : ∀ a, m.Mirroring (selfR a) (self a)) :
    m.Mirroring (m.recording.returned selfR)
      (fun σ S => (m.withSink S).returned fun a => self a σ S) := by
  refine .get fun c => ?_
  have hst : ∀ (σ : Type) (s : σ), (c.hand s).stack = c.stack := fun _ _ => rfl
  rcases hc : c.stack with _ | ⟨top, rest⟩
  · simp only [hst, hc]
    exact Mirroring.pure c
  · simp only [hst, hc]
    exact h _ c

theorem leave_mirroring (h : ∀ a, m.Mirroring (selfR a) (self a)) :
    m.Mirroring (m.recording.leave selfR)
      (fun σ S => (m.withSink S).leave fun a => self a σ S) := by
  refine .get fun c => ?_
  have hst : ∀ (σ : Type) (s : σ), (c.hand s).stack = c.stack := fun _ _ => rfl
  rcases hc : c.stack with _ | ⟨top, rest⟩
  · simp only [hst, hc]
    exact fail_mirroring _ c
  · simp only [hst, hc]
    have hl : (m.state top.state).label = m.label (c.hand ()) := by
      simp only [label, current, hst, hc]
    refine (report_mirrorsAt ?_).bind
      ((h _).bind (.bind (.modify ?_ ?_) (returned_mirroring h)))
    · exact ⟨hl, rfl, rfl⟩
    · exact fun _ => rfl
    · exact fun _ _ _ _ => rfl

theorem perform_mirroring (h : ∀ a, m.Mirroring (selfR a) (self a)) :
    ∀ a, m.Mirroring (m.recording.perform selfR a)
      (fun σ S => (m.withSink S).perform (fun a => self a σ S) a)
  | .skip => .pure
  | .forward => forward_mirroring
  | .enter t => enter_mirroring h t
  | .leave => leave_mirroring h
  | .reenter => .get fun c =>
      (leave_mirroring h).bind (enter_mirroring h (m.recording.current c)) c
  | .handBack => .bind (.modify (fun _ => rfl) fun _ _ _ _ => rfl)
      (.bind (leave_mirroring h) (.modify (fun _ => rfl) fun _ _ _ _ => rfl))
  | .reprocess => dispatch_mirroring h
  | .resume => by
    refine .get fun c => ?_
    have hb : ∀ (σ : Type) (s : σ), (c.hand s).handedBack = c.handedBack := fun _ _ => rfl
    simp only [hb]
    split
    · exact .set rfl (dispatch_mirroring h _)
    · exact Mirroring.pure c
  | .openNested =>
    .bind (.modify (Config.mapTop_consumer _) fun _ _ => mapTop_hand _) forward_mirroring
  | .closeNested => by
    refine .get fun c => ?_
    have hst : ∀ (σ : Type) (s : σ), (c.hand s).stack = c.stack := fun _ _ => rfl
    simp only [hst, mapTop_hand]
    split
    · exact .set (Config.mapTop_consumer _ c) (forward_mirroring _)
    · exact forward_mirroring.bind (leave_mirroring h) c
  | .escape t => by
    have ho : ∀ (σ : Type) (S : Sink σ), (m.withSink S).options = m.recording.options :=
      fun _ _ => rfl
    simp only [perform, ho]
    split
    · exact enter_mirroring h t
    · exact forward_mirroring
  | .forwardOnce => by
    refine .get fun c => ?_
    have hf : ∀ (σ : Type) (s : σ), (c.hand s).forwarded = c.forwarded := fun _ _ => rfl
    simp only [hf]
    split
    · exact forward_mirroring c
    · exact fail_mirroring _ c
  | .requireContent f => by
    refine .get fun c => ?_
    have hf : ∀ (σ : Type) (s : σ), (c.hand s).forwarded = c.forwarded := fun _ _ => rfl
    simp only [hf]
    split
    · exact fail_mirroring f c
    · exact Mirroring.pure c
  | .fail f => fail_mirroring f
  | .sequence as => .forM h as

end Steps

theorem handle_mirroring : ∀ (b : Nat) (a : Action ρ),
    m.Mirroring (m.recording.handle b a) (fun _ S => (m.withSink S).handle b a)
  | 0, _ => fun _ => .quiet rfl fun _ _ _ => rfl
  | b + 1, a => perform_mirroring (handle_mirroring b) a

theorem advance_mirroring (b n : Nat) (ch : Char) :
    m.Mirroring (m.recording.advance b n ch) (fun _ S => (m.withSink S).advance b n ch) :=
  .bind (.modify (fun _ => rfl) fun _ _ _ _ => rfl) (dispatch_mirroring (handle_mirroring b))

theorem feed_mirroring (b : Nat) : ∀ (n : Nat) (cs : List Char),
    m.Mirroring (m.recording.feed b n cs) (fun _ S => (m.withSink S).feed b n cs)
  | _, [] => .pure
  | n, ch :: cs => (advance_mirroring b n ch).bind (feed_mirroring b (n + ch.utf8Size) cs)

theorem closeAll_mirroring (b : Nat) : ∀ rounds : Nat,
    m.Mirroring (m.recording.closeAll b rounds) (fun _ S => (m.withSink S).closeAll b rounds)
  | 0 => by
    refine .get fun c => ?_
    have hst : ∀ (σ : Type) (s : σ), (c.hand s).stack = c.stack := fun _ _ => rfl
    rcases hc : c.stack with _ | ⟨top, rest⟩
    · simp only [hst, hc]
      exact Mirroring.pure c
    · simp only [hst, hc]
      exact .quiet rfl fun _ _ _ => rfl
  | rounds + 1 => by
    refine .get fun c => ?_
    have hst : ∀ (σ : Type) (c : Config ρ (Array Event)) (s : σ), (c.hand s).stack = c.stack :=
      fun _ _ _ => rfl
    rcases hc : c.stack with _ | ⟨top, rest⟩
    · simp only [hst, hc]
      exact Mirroring.pure c
    · simp only [hst, hc]
      refine (handle_mirroring b _).bind (.get fun c => ?_) c
      simp only [hst]
      split
      · exact (leave_mirroring (handle_mirroring b)).bind (closeAll_mirroring b rounds) c
      · exact closeAll_mirroring b rounds c

theorem finish_mirroring (b n : Nat) :
    m.Mirroring (m.recording.finish b n) (fun _ S => (m.withSink S).finish b n) :=
  .bind (.modify (fun _ => rfl) fun _ _ _ _ => rfl) (closeAll_mirroring b b)

/-- Reading with any sink replays the recording of the same line. -/
theorem read_mirroring (b n : Nat) (cs : List Char) :
    m.Mirroring (m.recording.read b n cs) (fun _ S => (m.withSink S).read b n cs) :=
  (feed_mirroring b n cs).bind (finish_mirroring b (n + Text.byteSize cs))

end Machine

namespace Sink

/-- Offers the events to the sink one after the other until it refuses one: the events that were
offered, and what the sink made of them. -/
def replay (S : Sink σ) : List Event → σ → List Event × EStateM.Result String σ Unit
  | [], s => ([], .ok () s)
  | e :: es, s =>
    match S e s with
    | .ok () t => (e :: (replay S es t).1, (replay S es t).2)
    | .error reason t => ([e], .error reason t)

theorem replay_of_takes {S : Sink σ} : ∀ {es : List Event} {s s' : σ}, S.Takes es s s' →
    S.replay es s = (es, .ok () s')
  | [], s, s', h => by
    obtain rfl : s = s' := by simpa [Takes, List.forM, pure, EStateM.pure] using h
    rfl
  | e :: es, s, s', h => by
    obtain ⟨t, ht, h⟩ := takes_cons_iff.1 h
    simp only [replay, ht, replay_of_takes h]

theorem replay_of_refuses {S : Sink σ} {e : Event} {s₁ s₂ : σ} {reason : String}
    (he : S e s₁ = .error reason s₂) (rest : List Event) : ∀ {taken : List Event} {s : σ},
    S.Takes taken s s₁ → S.replay (taken ++ e :: rest) s = (taken ++ [e], .error reason s₂)
  | [], s, h => by
    obtain rfl : s = s₁ := by simpa [Takes, List.forM, pure, EStateM.pure] using h
    simp only [List.nil_append, replay, he]
  | d :: taken, s, h => by
    obtain ⟨t, ht, h⟩ := takes_cons_iff.1 h
    simp only [List.cons_append, replay, ht, replay_of_refuses he rest h]

/-- A sink that is fed behind a recording one sees what it would see alone, and the record is what
it was offered. -/
theorem replay_both_record (S : Sink σ) : ∀ (es : List Event) (l : Array Event) (s : σ),
    (both record S).replay es (l, s) = ((S.replay es s).1,
      match (S.replay es s).2 with
      | .ok () s' => .ok () (l ++ (S.replay es s).1, s')
      | .error reason s' => .error reason (l ++ (S.replay es s).1, s'))
  | [], l, s => by simp [replay]
  | e :: es, l, s => by
    have hrec : record e l = .ok () (l.push e) := rfl
    rcases hs : S e s with ⟨_, t⟩ | ⟨reason, t⟩
    · have hb : both record S e (l, s) = .ok () (l.push e, t) := by simp only [both, hrec, hs]
      have happ : ∀ es' : List Event, (l.push e) ++ es' = l ++ e :: es' := by
        intro es'
        simp
      simp only [replay, hs, hb, replay_both_record S es (l.push e) t, happ]
    · have hb : both record S e (l, s) = .error reason (l.push e, t) := by
        simp only [both, hrec, hs]
      have happ : l.push e = l ++ [e] := by simp
      simp only [replay, hs, hb, happ]

theorem replay_ofStep (step : σ → Event → σ) : ∀ (es : List Event) (s : σ),
    (ofStep step).replay es s = (es, .ok () (es.foldl step s))
  | [], _ => rfl
  | e :: es, s => by
    have he : ofStep step e s = .ok () (step s e) := rfl
    simp only [replay, he, replay_ofStep step es, List.foldl_cons]

end Sink

end RequestLine
