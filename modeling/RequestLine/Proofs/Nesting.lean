import RequestLine.Proofs.Refusal

/-!
# Nesting

The events of a run are well nested: a state is left only while it is the innermost open one, what
a state passes on it passes on while it is the innermost one, and a line that is accepted leaves
nothing open (`events_well_nested`). This holds for every table whose closing actions keep still,
that is, neither move the stack nor report anything. An event is reported before the push or the pop
it announces, so the events and the stack agree between two steps only (`Machine.Nested`). A run
that ends early may end in the middle of a step, and then its events still nest.
-/

namespace RequestLine

variable {ρ σ α : Type}

/-- The states that are open after the event, innermost first, if `opened` are open before it; none
if the event is about another state than the innermost one. Outside of all states that is
`outer`, which is never left. -/
def Event.nest? (outer : Label) (opened : List Label) : Event → Option (List Label)
  | .entered l _ => some (l :: opened)
  | .character l _ _ => if l = opened.headD outer then some opened else none
  | .leaving l _ _ =>
    match opened with
    | [] => none
    | top :: rest => if l = top then some rest else none

/-- Only the innermost state can be left. -/
theorem Event.eq_cons_of_leaving {outer l : Label} {n : Nat} {x : Option Char}
    {opened opened' : List Label}
    (h : (Event.leaving l n x).nest? outer opened = some opened') : opened = l :: opened' := by
  simp only [nest?] at h
  split at h
  · cases h
  · split at h
    · rename_i hl
      rw [hl, Option.some.inj h]
    · cases h

/-- Each of the events is about the state that is innermost at that moment, and `opened` are open
after all of them. -/
def Nests (outer : Label) (es : List Event) (opened : List Label) : Prop :=
  es.foldlM (Event.nest? outer) [] = some opened

/-- The events nest and leave nothing open. -/
def WellNested (outer : Label) (es : List Event) : Prop :=
  Nests outer es []

namespace Nests

variable {outer : Label} {es es' : List Event} {opened : List Label}

theorem nil (outer : Label) : Nests outer [] [] := rfl

theorem append_singleton {e : Event} {opened' : List Label} (h : Nests outer es opened)
    (he : e.nest? outer opened = some opened') : Nests outer (es ++ [e]) opened' := by
  simp only [Nests] at h
  simp only [Nests, List.foldlM_append, h]
  exact (bind_pure _).trans he

theorem of_append (h : Nests outer (es ++ es') opened) : ∃ opened', Nests outer es opened' := by
  simp only [Nests, List.foldlM_append] at h
  obtain ⟨opened', h', -⟩ := Option.bind_eq_some_iff.mp h
  exact ⟨opened', h'⟩

/-- Events that nest can be completed: what is open may be left. -/
theorem completes (h : Nests outer es opened) : ∃ more, WellNested outer (es ++ more) := by
  induction opened generalizing es with
  | nil => exact ⟨[], by rwa [List.append_nil]⟩
  | cons top rest ih =>
    have hleave : Nests outer (es ++ [Event.leaving top 0 none]) rest :=
      h.append_singleton (by simp [Event.nest?])
    obtain ⟨more, hmore⟩ := ih hleave
    exact ⟨.leaving top 0 none :: more, by simpa using hmore⟩

end Nests

/-- The action neither moves the stack nor reports anything; all it can do is fail. -/
inductive Action.Still : Action ρ → Prop
  | skip : Still .skip
  | requireContent (f : Fault) : Still (.requireContent f)
  | fail (f : Fault) : Still (.fail f)
  | sequence {as : List (Action ρ)} (h : ∀ a ∈ as, Still a) : Still (.sequence as)

/-- The step leaves the configuration as it is, whether or not it fails. -/
def Run.StaysAt (x : Run ρ σ Unit) (c : Config ρ σ) : Prop :=
  x c = .ok () c ∨ ∃ e, x c = .error e c

theorem Run.staysAt_forM {f : α → Run ρ σ Unit} {c : Config ρ σ} :
    ∀ {as : List α}, (∀ a ∈ as, (f a).StaysAt c) → (as.forM f : Run ρ σ Unit).StaysAt c
  | [], _ => .inl rfl
  | a :: as, h => by
    have hrest := Run.staysAt_forM fun x hx => h x (List.mem_cons_of_mem a hx)
    have hcons : ((a :: as).forM f : Run ρ σ Unit) c = (f a >>= fun _ => as.forM f) c := rfl
    unfold StaysAt
    rw [hcons, Run.bind_apply]
    rcases h a List.mem_cons_self with ha | ⟨e, ha⟩
    · rw [ha]
      exact hrest
    · rw [ha]
      exact .inr ⟨e, rfl⟩

namespace Machine

theorem fail_staysAt (m : Machine ρ σ) (f : Fault) (c : Config ρ σ) : (m.fail f).StaysAt c := by
  simp only [Run.StaysAt, fail]
  split
  · exact .inl rfl
  · exact .inr ⟨_, rfl⟩

theorem handle_staysAt (m : Machine ρ σ) : ∀ (b : Nat) {a : Action ρ}, a.Still →
    ∀ c, (m.handle b a).StaysAt c
  | 0, _, _, _ => .inr ⟨.exhausted, rfl⟩
  | _ + 1, _, .skip, _ => .inl rfl
  | _ + 1, _, .fail f, c => m.fail_staysAt f c
  | b + 1, _, .requireContent f, c => by
    have hrun : m.handle (b + 1) (.requireContent f) c
        = if c.forwarded = 0 then m.fail f c else .ok () c := by
      simp only [handle, perform, Run.bind_apply, Run.get_apply]
      split <;> rfl
    unfold Run.StaysAt
    rw [hrun]
    split
    · exact m.fail_staysAt f c
    · exact .inl rfl
  | b + 1, _, .sequence h, c => Run.staysAt_forM fun a ha => m.handle_staysAt b (h a ha) c

variable (m : Machine ρ σ)

/-- The labels of the open states, innermost first. -/
def opened (c : Config ρ (Array Event)) : List Label :=
  c.stack.map fun f => (m.state f.state).label

/-- The events so far nest, and what they leave open is the stack. -/
def Nested (c : Config ρ (Array Event)) : Prop :=
  Nests (m.state m.initial).label c.consumer.toList (m.opened c)

/-- How a step of a recording run ends: between two steps, or early, with events that nest. -/
def EndsNested : EStateM.Result Stop (Config ρ (Array Event)) Unit → Prop
  | .ok _ c => m.Nested c
  | .error _ c => ∃ opened, Nests (m.state m.initial).label c.consumer.toList opened

def NestsAt (x : Run ρ (Array Event) Unit) (c : Config ρ (Array Event)) : Prop :=
  m.EndsNested (x c)

/-- The step of a recording run takes events that nest to events that nest. -/
def Nesting (x : Run ρ (Array Event) Unit) : Prop :=
  ∀ c, m.Nested c → m.NestsAt x c

variable {m}

theorem Nested.congr {c c' : Config ρ (Array Event)} (h : m.Nested c)
    (hstack : m.opened c' = m.opened c) (hevents : c'.consumer = c.consumer) : m.Nested c' := by
  unfold Nested
  rw [hstack, hevents]
  exact h

theorem opened_mapTop {f : Frame ρ → Frame ρ} (hf : ∀ t, (f t).state = t.state)
    (c : Config ρ (Array Event)) : m.opened (c.mapTop f) = m.opened c := by
  obtain ⟨_ | ⟨top, rest⟩, _, _, _, _, _⟩ := c
  · rfl
  · simp only [opened, Config.mapTop, List.map_cons, hf]

theorem Nested.mapTop {c : Config ρ (Array Event)} (h : m.Nested c) {f : Frame ρ → Frame ρ}
    (hf : ∀ t, (f t).state = t.state) : m.Nested (c.mapTop f) :=
  h.congr (opened_mapTop hf c) (Config.mapTop_consumer f c)

theorem label_eq_headD (c : Config ρ (Array Event)) :
    m.recording.label c = (m.opened c).headD (m.state m.initial).label := by
  obtain ⟨_ | ⟨top, rest⟩, _, _, _, _, _⟩ := c <;> rfl

theorem NestsAt.bind {x y : Run ρ (Array Event) Unit} {c : Config ρ (Array Event)}
    (h : m.NestsAt x c) (hy : m.Nesting y) : m.NestsAt (x >>= fun _ => y) c := by
  unfold NestsAt at h ⊢
  rw [Run.bind_apply]
  rcases hx : x c with ⟨_, c'⟩ | ⟨e, c'⟩ <;> rw [hx] at h
  · exact hy c' h
  · exact h

theorem Nesting.bind {x y : Run ρ (Array Event) Unit} (hx : m.Nesting x) (hy : m.Nesting y) :
    m.Nesting (x >>= fun _ => y) :=
  fun c h => (hx c h).bind hy

theorem Nesting.pure : m.Nesting (Pure.pure ()) :=
  fun _ h => h

theorem Nesting.get {f : Config ρ (Array Event) → Run ρ (Array Event) Unit}
    (hf : ∀ c, m.Nested c → m.NestsAt (f c) c) : m.Nesting (MonadState.get >>= f) :=
  hf

theorem Nesting.modify {f : Config ρ (Array Event) → Config ρ (Array Event)}
    (hf : ∀ c, m.Nested c → m.Nested (f c)) :
    m.Nesting (modifyGet fun c => (⟨⟩, f c) : Run ρ (Array Event) PUnit) :=
  hf

theorem Nesting.forM {f : α → Run ρ (Array Event) Unit} (hf : ∀ a, m.Nesting (f a)) :
    ∀ as : List α, m.Nesting (as.forM f)
  | [] => .pure
  | a :: as => (hf a).bind (Nesting.forM hf as)

theorem NestsAt.of_staysAt {x : Run ρ (Array Event) Unit} {c : Config ρ (Array Event)}
    (h : m.Nested c) (hx : x.StaysAt c) : m.NestsAt x c := by
  unfold NestsAt
  rcases hx with hx | ⟨e, hx⟩
  · rw [hx]
    exact h
  · rw [hx]
    exact ⟨_, h⟩

theorem fail_nesting (f : Fault) : m.Nesting (m.recording.fail f) :=
  fun c h => .of_staysAt h (m.recording.fail_staysAt f c)

theorem forward_nesting : m.Nesting m.recording.forward := by
  refine .get fun c h => ?_
  split
  · exact h
  · rename_i ch hc
    let f : Frame ρ → Frame ρ := fun t => { t with forwarded := t.forwarded + 1 }
    have hlabels : m.opened (c.mapTop f) = m.opened c :=
      opened_mapTop (f := f) (fun _ => rfl) c
    have hevent : (Event.character (m.recording.label c) ch c.offset).nest?
        (m.state m.initial).label (m.opened (c.mapTop f)) = some (m.opened (c.mapTop f)) := by
      rw [Event.nest?, hlabels, label_eq_headD, if_pos rfl]
    have htop : m.Nested (c.mapTop f) := h.mapTop fun _ => rfl
    change Nests _ ((c.mapTop f).consumer.push _).toList (m.opened (c.mapTop f))
    rw [Array.toList_push]
    exact htop.append_singleton hevent

section Steps

variable {self : Action ρ → Run ρ (Array Event) Unit}

theorem dispatch_nesting (h : ∀ a, m.Nesting (self a)) :
    m.Nesting (m.recording.dispatch self) := by
  refine .get fun c hc => ?_
  split
  · exact hc
  · split
    · exact hc
    · exact h _ c hc

theorem enter_nesting (h : ∀ a, m.Nesting (self a)) (t : ρ) :
    m.Nesting (m.recording.enter self t) := by
  refine .get fun c hc => ?_
  refine h _ _ ?_
  change Nests _ (c.consumer.push _).toList ((m.state t).label :: m.opened c)
  rw [Array.toList_push]
  exact hc.append_singleton rfl

theorem returned_nesting (h : ∀ a, m.Nesting (self a)) :
    m.Nesting (m.recording.returned self) := by
  refine .get fun c hc => ?_
  split
  · exact hc
  · exact h _ c hc

/-- Closing a state reports it and pops it. The closing action stands between the two, and since it
is still, the state that is popped is the one that was reported. -/
theorem leave_nesting (h : ∀ a, m.Nesting (self a))
    (hstill : ∀ {a : Action ρ}, a.Still → ∀ c, (self a).StaysAt c)
    (hleave : ∀ t, (m.state t).onLeave.Still) : m.Nesting (m.recording.leave self) := by
  refine .get fun c hc => ?_
  split
  · exact fail_nesting _ c hc
  · rename_i top rest hst
    let c₁ : Config ρ (Array Event) :=
      { c with consumer := c.consumer.push (.leaving (m.state top.state).label c.offset c.cursor) }
    have hpopped : Nests (m.state m.initial).label c₁.consumer.toList
        (c₁.stack.tail.map fun f => (m.state f.state).label) := by
      rw [Array.toList_push]
      refine hc.append_singleton ?_
      simp [opened, c₁, hst, Event.nest?]
    have hclose : ∀ x : Run ρ (Array Event) Unit, x.StaysAt c₁ → m.NestsAt (x >>= fun _ =>
        modify (fun c => c.pop.note (.left (m.state top.state).label c.offset)) >>= fun _ =>
          m.recording.returned self) c₁ := by
      intro x hx
      unfold NestsAt
      rw [Run.bind_apply]
      rcases hx with hx | ⟨e, hx⟩
      · rw [hx]
        exact returned_nesting h (c₁.pop.note (.left (m.state top.state).label c₁.offset)) hpopped
      · rw [hx]
        exact ⟨_, hpopped⟩
    exact hclose _ (hstill (hleave top.state) c₁)

theorem perform_nesting (h : ∀ a, m.Nesting (self a))
    (hstill : ∀ {a : Action ρ}, a.Still → ∀ c, (self a).StaysAt c)
    (hleave : ∀ t, (m.state t).onLeave.Still) : ∀ a, m.Nesting (m.recording.perform self a)
  | .skip => .pure
  | .forward => forward_nesting
  | .enter t => enter_nesting h t
  | .leave => leave_nesting h hstill hleave
  | .reenter => .get fun c hc =>
      (leave_nesting h hstill hleave c hc).bind (enter_nesting h (m.recording.current c))
  | .handBack => .bind (.modify fun _ hc => hc)
      (.bind (leave_nesting h hstill hleave) (.modify fun _ hc => hc))
  | .reprocess => dispatch_nesting h
  | .resume => by
    refine .get fun c hc => ?_
    split
    · exact dispatch_nesting h { c with handedBack := false } hc
    · exact hc
  | .openNested => .bind (.modify fun _ hc => hc.mapTop fun _ => rfl) forward_nesting
  | .closeNested => by
    refine .get fun c hc => ?_
    split
    · exact forward_nesting _ (hc.mapTop fun _ => rfl)
    · exact (forward_nesting c hc).bind (leave_nesting h hstill hleave)
  | .escape t => by
    simp only [perform]
    split
    · exact enter_nesting h t
    · exact forward_nesting
  | .forwardOnce => by
    refine .get fun c hc => ?_
    split
    · exact forward_nesting c hc
    · exact fail_nesting _ c hc
  | .requireContent f => by
    refine .get fun c hc => ?_
    split
    · exact fail_nesting f c hc
    · exact hc
  | .fail f => fail_nesting f
  | .sequence as => .forM h as

end Steps

section Runs

variable (hleave : ∀ t, (m.state t).onLeave.Still)

include hleave

theorem handle_nesting : ∀ (b : Nat) (a : Action ρ), m.Nesting (m.recording.handle b a)
  | 0, _ => fun _ h => ⟨_, h⟩
  | b + 1, a => perform_nesting (handle_nesting b) (m.recording.handle_staysAt b) hleave a

theorem feed_nesting (b : Nat) : ∀ (n : Nat) (cs : List Char), m.Nesting (m.recording.feed b n cs)
  | _, [] => .pure
  | n, ch :: cs => .bind (.bind (.modify fun _ hc => hc)
      (dispatch_nesting (handle_nesting hleave b))) (feed_nesting b (n + ch.utf8Size) cs)

theorem closeAll_nesting (b : Nat) : ∀ rounds : Nat, m.Nesting (m.recording.closeAll b rounds)
  | 0 => by
    refine .get fun c hc => ?_
    split
    · exact hc
    · exact ⟨_, hc⟩
  | rounds + 1 => by
    refine .get fun c hc => ?_
    split
    · exact hc
    · refine (handle_nesting hleave b _ c hc).bind (.get fun c' hc' => ?_)
      split
      · exact (leave_nesting (handle_nesting hleave b) (m.recording.handle_staysAt b) hleave c'
          hc').bind (closeAll_nesting b rounds)
      · exact closeAll_nesting b rounds c' hc'

theorem read_nesting (b n : Nat) (cs : List Char) : m.Nesting (m.recording.read b n cs) :=
  .bind (feed_nesting hleave b n cs) (.bind (.modify fun _ hc => hc) (closeAll_nesting hleave b b))

end Runs

/-- States are closed until none is open. -/
theorem closeAll_stack (m : Machine ρ σ) (b : Nat) : ∀ (rounds : Nat) {c c' : Config ρ σ},
    m.closeAll b rounds c = .ok () c' → c'.stack = []
  | 0, c, c', h => by
    simp only [closeAll, Run.bind_apply, Run.get_apply] at h
    rcases hst : c.stack with _ | ⟨top, rest⟩ <;> rw [hst] at h
    · cases h
      exact hst
    · cases h
  | rounds + 1, c, c', h => by
    simp only [closeAll, Run.bind_apply, Run.get_apply] at h
    rcases hst : c.stack with _ | ⟨top, rest⟩ <;> rw [hst] at h
    · cases h
      exact hst
    · simp only [Run.bind_apply] at h
      rcases hx : m.handle b (m.state top.state).onEnd c with ⟨_, c₁⟩ | ⟨e, c₁⟩ <;> rw [hx] at h
      · simp only [Run.get_apply] at h
        split at h
        · simp only [Run.bind_apply] at h
          rcases hy : m.leave (m.handle b) c₁ with ⟨_, c₂⟩ | ⟨e, c₂⟩ <;> rw [hy] at h
          · exact closeAll_stack m b rounds h
          · cases h
        · exact closeAll_stack m b rounds h
      · cases h

theorem read_stack (m : Machine ρ σ) {b n : Nat} {cs : List Char} {c c' : Config ρ σ}
    (h : m.read b n cs c = .ok () c') : c'.stack = [] := by
  simp only [read, Run.bind_apply] at h
  rcases hx : m.feed b n cs c with ⟨_, c₁⟩ | ⟨e, c₁⟩ <;> rw [hx] at h
  · exact m.closeAll_stack b b h
  · cases h

/-- The events of a recording run nest, and they leave nothing open if the line is accepted. -/
theorem run_nests (m : Machine ρ σ) (hleave : ∀ t, (m.state t).onLeave.Still) (b : Nat)
    (line : String) :
    ∃ opened, Nests (m.state m.initial).label (m.recording.run b line #[]).consumer.toList opened
      ∧ ((m.recording.run b line #[]).outcome = .ok () → opened = []) := by
  rcases hcs : line.toList.dropWhile m.options.isBlank with _ | ⟨ch, cs⟩
  · rw [m.recording.run_of_blank hcs]
    exact ⟨[], .nil _, fun _ => rfl⟩
  · have hread : m.EndsNested (m.recording.read b
        (Text.byteSize (line.toList.takeWhile m.recording.options.isBlank)) (ch :: cs)
        { consumer := #[] }) := read_nesting hleave b _ (ch :: cs) { consumer := #[] } (.nil _)
    rw [m.recording.run_of_content hcs, conclude_consumer]
    rcases hx : m.recording.read b
      (Text.byteSize (line.toList.takeWhile m.recording.options.isBlank)) (ch :: cs)
      { consumer := #[] } with ⟨_, c⟩ | ⟨stop, c⟩ <;> rw [hx] at hread
    · have hopened : m.opened c = [] := by rw [opened, m.recording.read_stack hx, List.map_nil]
      exact ⟨m.opened c, hread, fun _ => hopened⟩
    · obtain ⟨opened, hopened⟩ := hread
      refine ⟨opened, hopened, fun hok => ?_⟩
      cases stop <;> cases hok

end Machine

/-- The closing actions of the request grammar keep still. -/
theorem Request.still_onLeave (l : Label) : (Request.state l).onLeave.Still := by
  cases l
  case operationName => exact .requireContent _
  all_goals exact .skip

/-- For every table whose closing actions keep still, and so for the request grammar, the events
that are offered to a sink nest: each of them is about the state that is innermost at that moment.
If the line is accepted, every state that was entered has been left. If it is not, the events are
the beginning of others that leave nothing open. -/
theorem events_well_nested (m : Machine ρ σ) (hleave : ∀ t, (m.state t).onLeave.Still)
    (line : String) (s : σ) (r : Report σ) (h : m.Returns line s r) :
    (∃ offered : List Event,
      (m.withSink (Sink.both Sink.record m.sink)).Returns line (#[], s)
        (r.hand (offered.toArray, r.consumer))
      ∧ (∃ opened, Nests (m.state m.initial).label offered opened)
      ∧ (r.outcome = .ok () → WellNested (m.state m.initial).label offered)
      ∧ ∃ more, WellNested (m.state m.initial).label (offered ++ more))
    ∧ ∀ l, (Request.state l).onLeave.Still := by
  refine ⟨?_, Request.still_onLeave⟩
  obtain ⟨b, rfl, hb⟩ := h
  obtain ⟨opened, hnests, hclosed⟩ := m.run_nests hleave b line
  obtain ⟨offered, htee, hprefix, hend⟩ := m.run_both_record b line s
  have hoffered : ∃ opened', Nests (m.state m.initial).label offered opened' := by
    obtain ⟨rest, hrest⟩ := hprefix
    rw [← hrest] at hnests
    exact hnests.of_append
  refine ⟨offered, ⟨b, htee, hb⟩, hoffered, fun hok => ?_, ?_⟩
  · rcases hend with ⟨-, rfl, hout⟩ | ⟨taken, e, s₁, reason, s₂, notes, -, -, -, hx⟩
    · rw [hout] at hok
      rw [hclosed hok] at hnests
      exact hnests
    · rw [hx] at hok
      cases hok
  · obtain ⟨opened', hopened⟩ := hoffered
    exact hopened.completes

/-- A literal of a value, inside a property, inside the list. -/
theorem well_nested_of_literal :
    (∀ l, ((Request.machine {} Sink.ignore).state l).onLeave.Still)
      ∧ (Request.machine {} Sink.ignore).Returns "(a=[b,[)]])" ()
        (Request.run {} Sink.ignore "(a=[b,[)]])" ())
      ∧ ∃ offered : List Event,
        ((Request.machine {} Sink.ignore).withSink
            (Sink.both Sink.record (Request.machine {} Sink.ignore).sink)).Returns "(a=[b,[)]])"
          (#[], ()) ((Request.run {} Sink.ignore "(a=[b,[)]])" ()).hand (offered.toArray, ()))
        ∧ WellNested .initial offered := by
  have hok : (Request.run {} Sink.ignore "(a=[b,[)]])" ()).outcome = .ok () := by decide +kernel
  generalize hr : Request.run {} Sink.ignore "(a=[b,[)]])" () = r at hok
  have hret : (Request.machine {} Sink.ignore).Returns "(a=[b,[)]])" () r :=
    ⟨Request.bound, hr, by rw [hok]; simp⟩
  obtain ⟨⟨offered, htee, -, hwell, -⟩, -⟩ := events_well_nested _ Request.still_onLeave _ _ _ hret
  exact ⟨Request.still_onLeave, hret, offered, htee, hwell hok⟩

end RequestLine
