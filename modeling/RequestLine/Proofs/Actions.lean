import RequestLine.Proofs.Place
import RequestLine.Proofs.Running

/-!
# The actions of the request machine

What single actions of the request grammar do to the configuration of the recording machine: which
of them open, close or pass on, and when a character is read again by the state below. `Place.At`
says that the machine stands at a place, and `Place.Follows` that a step does what a move says;
the actions take the machine from one place to another.
-/

namespace RequestLine

theorem State.actionFor_of_notMem {ρ : Type} {s : State ρ} {ch : Char}
    (h : ch ∉ s.entries.map Prod.fst) : s.actionFor ch = s.otherwise := by
  have hlook : s.entries.lookup ch = none := by
    rw [List.lookup_eq_none_iff]
    intro p hp
    simp only [bne_iff_ne, ne_eq]
    rintro rfl
    exact h (List.mem_map_of_mem hp)
  rw [State.actionFor, hlook, Option.getD_none]

namespace Place

/-- The recording machine of the request grammar. -/
abbrev machine (o : Options) : Machine Label (Array Event) :=
  Request.machine o Sink.record

abbrev Conf := Config Label (Array Event)

/-- The machine stands at the place `p` after the events `es`. -/
structure At (p : Place) (es : List Event) (c : Conf) : Prop where
  stack : c.stack = p.stack
  handedBack : c.handedBack = false
  events : c.consumer.toList = es

/-- A step that began after the events `es` does what `move` says. -/
inductive Follows (es : List Event) : EStateM.Result Stop Conf Unit → Move → Prop
  | moved {c : Conf} {new : List Event} {p : Place} (h : At p (es ++ new) c) :
    Follows es (.ok () c) (new, .ok p)
  | failed {c : Conf} {new : List Event} {e : ParseError}
    (h : c.consumer.toList = es ++ new) : Follows es (.error (.failed e) c) (new, .error e)

section Steps

/-! ## What single actions do -/

/-- The configuration with the state `l` opened and reported. -/
def opened (l : Label) (c : Conf) : Conf :=
  { (c.note (.entered l c.offset)).push l with consumer := c.consumer.push (.entered l c.offset) }

def closed (l : Label) (c : Conf) : Conf :=
  { c.pop.note (.left l c.offset) with
    consumer := c.consumer.push (.leaving l c.offset c.cursor) }

def passed (l : Label) (ch : Char) (c : Conf) : Conf :=
  { c.mapTop fun top => { top with forwarded := top.forwarded + 1 } with
    consumer := c.consumer.push (.character l ch c.offset) }

variable {o : Options} {c : Conf} {ch : Char} {l : Label} {k : Nat} {top : Frame Label}
  {rest : List (Frame Label)} {p q : Place} {es : List Event}

theorem dispatch_eq (self : Action Label → Run Label (Array Event) Unit)
    (hc : c.cursor = some ch) :
    (machine o).dispatch self c =
      if o.isBlank ch && (machine o).skipsBlanks c then .ok () c
      else self ((Request.state ((machine o).current c)).actionFor ch) c := by
  have hopt : (machine o).options = o := rfl
  simp only [Machine.dispatch, Run.bind_apply, Run.get_apply, hc, hopt]
  split <;> rfl

theorem enter_eq (self : Action Label → Run Label (Array Event) Unit) :
    (machine o).enter self l c = self (Request.state l).onEnter (opened l c) := by
  have hl : ((machine o).state l).label = l := Request.label_state l
  simp only [Machine.enter, Run.bind_apply, Run.get_apply, Run.modify_apply, hl]
  rfl

theorem leave_eq (hst : c.stack = top :: rest) (hl : (Request.state top.state).onLeave = .skip) :
    (machine o).leave ((machine o).handle (k + 1)) c
      = (machine o).returned ((machine o).handle (k + 1)) (closed top.state c) := by
  have htop : ((machine o).state top.state).label = top.state := Request.label_state top.state
  have hskip : ((machine o).state top.state).onLeave = .skip := hl
  simp only [Machine.leave, Run.bind_apply, Run.get_apply, Run.modify_apply, hst, htop, hskip]
  rfl

theorem forward_current (hc : c.cursor = some ch) (hcur : (machine o).current c = l) :
    (machine o).forward c = .ok () (passed l ch c) := by
  have hlab : (machine o).label c = l := by
    rw [Machine.label, hcur]
    exact Request.label_state l
  simp only [Machine.forward, Run.bind_apply, Run.get_apply, Run.set_apply, hc, hlab]
  simp only [Machine.report, passed, Config.mapTop_consumer, Config.mapTop_offset]
  rfl

theorem forward_eq (hc : c.cursor = some ch) (hst : c.stack = top :: rest) :
    (machine o).forward c = .ok () (passed top.state ch c) :=
  forward_current hc (by simp only [Machine.current, hst])

theorem returned_nil (self : Action Label → Run Label (Array Event) Unit) (hst : c.stack = []) :
    (machine o).returned self c = .ok () c := by
  simp only [Machine.returned, Run.bind_apply, Run.get_apply, hst]
  rfl

theorem handle_skip : (machine o).handle (k + 1) .skip c = .ok () c := rfl

theorem handle_enter (he : (Request.state l).onEnter = .skip) :
    (machine o).handle (k + 2) (.enter l) c = .ok () (opened l c) := by
  change (machine o).enter ((machine o).handle (k + 1)) l c = _
  rw [enter_eq, he, handle_skip]

/-- A state that resumes reads the character again if it was handed back. -/
theorem returned_resume (hst : c.stack = top :: rest)
    (hr : (Request.state top.state).onReturn = .resume) :
    (machine o).returned ((machine o).handle (k + 1)) c =
      if c.handedBack then
        (machine o).dispatch ((machine o).handle k) { c with handedBack := false }
      else .ok () c := by
  have hret : (machine o).returned ((machine o).handle (k + 1)) c
      = (machine o).handle (k + 1) .resume c := by
    simp only [Machine.returned, Run.bind_apply, Run.get_apply, hst]
    exact congrArg (fun a => (machine o).handle (k + 1) a c) hr
  have hres : (machine o).handle (k + 1) .resume c = (do
      let c ← get
      if c.handedBack then
        set { c with handedBack := false }
        (machine o).dispatch ((machine o).handle k) : Run Label (Array Event) Unit) c := rfl
  rw [hret, hres]
  simp only [Run.bind_apply, Run.get_apply]
  split <;> rfl

theorem leave_single (hst : c.stack = [top])
    (hl : (Request.state top.state).onLeave = .skip) :
    (machine o).leave ((machine o).handle (k + 1)) c = .ok () (closed top.state c) := by
  rw [leave_eq hst hl, returned_nil]
  simp [closed, Config.pop, Config.note, hst]

/-- A state that is closed with its character is not read again by the state below. -/
theorem leave_quiet {next : Frame Label} (hst : c.stack = top :: next :: rest)
    (hl : (Request.state top.state).onLeave = .skip)
    (hr : (Request.state next.state).onReturn = .resume
      ∨ (Request.state next.state).onReturn = .skip)
    (hb : c.handedBack = false) :
    (machine o).leave ((machine o).handle (k + 1)) c = .ok () (closed top.state c) := by
  have hst' : (closed top.state c).stack = next :: rest := by
    simp [closed, Config.pop, Config.note, hst]
  have hb' : (closed top.state c).handedBack = false := hb
  rw [leave_eq hst hl]
  rcases hr with hr | hr
  · rw [returned_resume hst' hr, hb', if_neg (by simp)]
  · simp only [Machine.returned, Run.bind_apply, Run.get_apply, hst']
    exact congrArg (fun a => (machine o).handle (k + 1) a (closed top.state c)) hr

theorem handle_goTo (hst : c.stack = [top]) (hl : (Request.state top.state).onLeave = .skip)
    (he : (Request.state l).onEnter = .skip) :
    (machine o).handle (k + 3) (Request.goTo l) c = .ok () (opened l (closed top.state c)) := by
  change ((machine o).leave ((machine o).handle (k + 1)) >>= fun _ =>
    (machine o).handle (k + 2) (.enter l) >>= fun _ => pure ()) c = _
  simp only [Run.bind_apply, leave_single hst hl, handle_enter he, Run.pure_apply]

/-- Entering a state that reads its own opener goes on in that state. -/
theorem handle_start (he : (Request.state l).onEnter = .skip) :
    (machine o).handle (k + 3) (Request.start l) c
      = (machine o).dispatch ((machine o).handle (k + 1)) (opened l c) := by
  change ((machine o).handle (k + 2) (.enter l) >>= fun _ =>
    (machine o).dispatch ((machine o).handle (k + 1)) >>= fun _ => pure ()) c = _
  simp only [Run.bind_apply, handle_enter he]
  rcases (machine o).dispatch ((machine o).handle (k + 1)) (opened l c) with
    ⟨_, c'⟩ | ⟨e, c'⟩ <;> rfl

theorem handle_reenter (hcur : (machine o).current c = l)
    (hleave : (machine o).leave ((machine o).handle (k + 1)) c = .ok () (closed l c))
    (he : (Request.state l).onEnter = .skip) :
    (machine o).handle (k + 2) .reenter c = .ok () (opened l (closed l c)) := by
  change ((machine o).leave ((machine o).handle (k + 1)) >>= fun _ =>
    (machine o).enter ((machine o).handle (k + 1)) ((machine o).current c)) c = _
  simp only [Run.bind_apply, hleave, hcur, enter_eq, he, handle_skip]

/-- The result of a step, after which no character is handed back. -/
def cleared : EStateM.Result Stop Conf Unit → EStateM.Result Stop Conf Unit
  | .ok _ c => .ok () { c with handedBack := false }
  | .error e c => .error e c

/-- A character that is handed back is read again by the state below. -/
theorem handle_handBack {next : Frame Label} (hst : c.stack = top :: next :: rest)
    (hl : (Request.state top.state).onLeave = .skip)
    (hr : (Request.state next.state).onReturn = .resume) (hb : c.handedBack = false) :
    (machine o).handle (k + 3) .handBack c
      = cleared ((machine o).dispatch ((machine o).handle (k + 1)) (closed top.state c)) := by
  have hst' : (closed top.state { c with handedBack := true }).stack = next :: rest := by
    simp [closed, Config.pop, Config.note, hst]
  have hc' : { closed top.state { c with handedBack := true } with handedBack := false }
      = closed top.state c := by
    simp only [closed, Config.pop, Config.note, hb]
  have hleave : (machine o).leave ((machine o).handle (k + 2)) { c with handedBack := true }
      = (machine o).dispatch ((machine o).handle (k + 1)) (closed top.state c) := by
    refine (leave_eq (c := { c with handedBack := true }) hst hl).trans ?_
    rw [returned_resume hst' hr, ← hc']
    rfl
  change ((machine o).leave ((machine o).handle (k + 2)) >>= fun _ =>
    modify fun c => { c with handedBack := false }) { c with handedBack := true } = _
  simp only [Run.bind_apply, hleave]
  rcases (machine o).dispatch ((machine o).handle (k + 1)) (closed top.state c) with
    ⟨_, c'⟩ | ⟨e, c'⟩ <;> rfl

theorem handle_fail_unexpected (hc : c.cursor = some ch) (hst : c.stack = top :: rest) :
    (machine o).handle (k + 1) (.fail .unexpectedCharacter) c
      = .error (.failed { cause := .unexpectedCharacter, offset := c.offset, state := top.state
                          found := some ch }) c := by
  have hlab : (machine o).label c = top.state := by
    simp only [Machine.label, Machine.current, hst]
    exact Request.label_state top.state
  change (machine o).fail .unexpectedCharacter c = _
  simp only [Machine.fail, Machine.diagnose, Machine.errorAt, hlab, hc]

/-! ## From place to place -/

theorem At.opened (h : At p es c) (hc : c.cursor = some ch)
    (hq : q.stack = ({ offset := c.offset, opener := ch } : Opening).frame l :: p.stack) :
    At q (es ++ [Event.entered l c.offset]) (opened l c) where
  stack := by
    rw [hq, ← h.stack]
    simp [Place.opened, Config.push, Config.note, Opening.frame, hc]
  handedBack := h.handedBack
  events := by simp [Place.opened, h.events]

theorem At.closed {x : Option Char} (h : At p es c) (hc : c.cursor = x)
    (hp : p.stack = top :: q.stack) : At q (es ++ [Event.leaving l c.offset x]) (closed l c) where
  stack := by simp [Place.closed, Config.pop, Config.note, h.stack, hp]
  handedBack := h.handedBack
  events := by simp [Place.closed, h.events, hc]

theorem At.passed (h : At p es c) (hp : p.stack = top :: rest)
    (hq : q.stack = { top with forwarded := top.forwarded + 1 } :: rest) :
    At q (es ++ [Event.character l ch c.offset]) (passed l ch c) where
  stack := by simp [Place.passed, Config.mapTop, h.stack, hp, hq]
  handedBack := by simp [Place.passed, h.handedBack]
  events := by simp [Place.passed, h.events]

theorem Follows.after {es' : List Event} {r : EStateM.Result Stop Conf Unit} {move : Move}
    (h : Follows (es ++ es') r move) : Follows es r (after es' move) := by
  cases h with
  | moved h =>
    rw [List.append_assoc] at h
    exact .moved h
  | failed h =>
    rw [List.append_assoc] at h
    exact .failed h

theorem Follows.cleared {r : EStateM.Result Stop Conf Unit} {move : Move}
    (h : Follows es r move) : Follows es (cleared r) move := by
  cases h with
  | moved h => exact .moved ⟨h.stack, rfl, h.events⟩
  | failed h => exact .failed h

end Steps

end Place

end RequestLine
