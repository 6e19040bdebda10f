import RequestLine.Proofs.Actions

/-!
# The machine goes through the places

The recording machine of the request grammar, at a place and given a character, ends up where
`Place.next` says with the events that it says, or fails with its error
(`Place.advance_follows`). Every chain of actions settles within the bound; the deepest is a
parenthesis that closes a value, its property and the list.
-/

namespace RequestLine

namespace Place

/-! ## Texts -/

section Texts

variable {o : Options} {c : Conf} {ch : Char} {k : Nat} {es : List Event}

theorem stack_text (w : Owner) : ∃ top rest, w.stack = top :: rest ∧ top.state = w.label
    ∧ w.counted.stack = { top with forwarded := top.forwarded + 1 } :: rest := by
  cases w <;> exact ⟨_, _, rfl, rfl, rfl⟩

theorem skipsBlanks_text {w : Owner} (h : c.stack = w.stack) :
    (machine o).skipsBlanks c = w.skipsBlanks := by
  cases w <;> simp only [Machine.skipsBlanks, Machine.current, Config.forwarded, h, Owner.stack]
    <;> rfl

theorem actionFor_quote (w : Owner) :
    (Request.state w.label).actionFor '"' = .enter .quotes := by
  cases w <;> rfl

theorem actionFor_backslash (w : Owner) :
    (Request.state w.label).actionFor '\\' = .escape .escape := by
  cases w <;> rfl

theorem actionFor_plain {w : Owner} (h : ch ∉ w.marks) (hq : ch ≠ '"') (hb : ch ≠ '\\') :
    (Request.state w.label).actionFor ch = .forward := by
  have hent : ch ∉ (Request.state w.label).entries.map Prod.fst := by
    cases w <;> simp_all [Owner.marks, Owner.label, Request.state]
  rw [State.actionFor_of_notMem hent]
  cases w <;> rfl

theorem handle_escape (hrule : o.escapeRule = .backslash) :
    (machine o).handle (k + 1) (.escape .escape) c
      = (machine o).handle (k + 1) (.enter .escape) c := by
  have hopt : (machine o).options.escapeRule = .backslash := hrule
  simp only [Machine.handle, Machine.perform, hopt]

theorem handle_escape_verbatim (hrule : o.escapeRule ≠ .backslash) :
    (machine o).handle (k + 1) (.escape .escape) c = (machine o).forward c := by
  have hopt : (machine o).options.escapeRule = .verbatim := by
    change o.escapeRule = .verbatim
    rcases hr : o.escapeRule with _ | _
    · exact absurd hr hrule
    · rfl
  simp only [Machine.handle, Machine.perform, hopt]

/-- A text is read as `onText` says, if its owner's marks are. -/
theorem dispatch_text {w : Owner} (h : At (.text w .none) es c) (hc : c.cursor = some ch)
    (hmark : ch ∈ w.marks → Follows es
      ((machine o).handle (k + 2) ((Request.state w.label).actionFor ch) c)
      (onMark c.offset ch w)) :
    Follows es ((machine o).dispatch ((machine o).handle (k + 2)) c) (onText o c.offset ch w) := by
  obtain ⟨top, rest, hw, htop, hcount⟩ := stack_text w
  have hst : c.stack = w.stack := h.stack
  have hcur : (machine o).current c = w.label := by
    simp only [Machine.current, hst, hw, htop]
  have hfwd : (machine o).forward c = .ok () (passed w.label ch c) := by
    rw [forward_eq hc (hst.trans hw), htop]
  have hpass : Follows es (.ok () (passed w.label ch c))
      ([.character w.label ch c.offset], .ok (.text w.counted .none)) :=
    .moved (h.passed hw hcount)
  rw [dispatch_eq _ hc, skipsBlanks_text hst, hcur]
  unfold onText
  split
  · exact .moved ⟨h.stack, h.handedBack, by rw [h.events, List.append_nil]⟩
  split
  · rename_i hq
    subst hq
    rw [actionFor_quote, handle_enter rfl]
    exact .moved (h.opened hc rfl)
  split
  · rename_i hb
    simp only [Bool.and_eq_true, decide_eq_true_eq] at hb
    obtain ⟨rfl, hrule⟩ := hb
    rw [actionFor_backslash, handle_escape hrule, handle_enter rfl]
    exact .moved (h.opened hc rfl)
  split
  · rename_i hm
    exact hmark hm
  · rename_i hq hb hm
    by_cases hbs : ch = '\\'
    · subst hbs
      rw [actionFor_backslash, handle_escape_verbatim (by simpa using hb), hfwd]
      exact hpass
    · rw [actionFor_plain hm hq hbs]
      change Follows es ((machine o).forward c) _
      rw [hfwd]
      exact hpass

theorem follows_goTo {p q : Place} {top : Frame Label} {l : Label} (h : At p es c)
    (hc : c.cursor = some ch) (hp : p.stack = [top])
    (hl : (Request.state top.state).onLeave = .skip) (he : (Request.state l).onEnter = .skip)
    (hq : q.stack = [({ offset := c.offset, opener := ch } : Opening).frame l]) :
    Follows es ((machine o).handle (k + 3) (Request.goTo l) c)
      ([.leaving top.state c.offset (some ch), .entered l c.offset], .ok q) := by
  have hclosed : At .start (es ++ [Event.leaving top.state c.offset (some ch)])
      (closed top.state c) := h.closed hc hp
  have hopened := hclosed.opened (q := q) (l := l) hc hq
  rw [List.append_assoc] at hopened
  rw [handle_goTo (h.stack.trans hp) hl he]
  exact .moved hopened

theorem dispatch_node {f : Opening} (h : At (.text (.node f) .none) es c)
    (hc : c.cursor = some ch) :
    Follows es ((machine o).dispatch ((machine o).handle (k + 3)) c)
      (onText o c.offset ch (.node f)) := by
  refine dispatch_text h hc fun hm => ?_
  have hst : c.stack = [f.frame .node] := h.stack
  have hclosed : At .start (es ++ [Event.leaving .node c.offset (some ch)]) (closed .node c) :=
    h.closed hc rfl
  simp only [Owner.marks, List.mem_cons, List.not_mem_nil, or_false] at hm
  rcases hm with rfl | rfl | rfl | rfl | rfl | rfl
  · change Follows es ((machine o).handle (k + 3) (.enter .nodeName) c) _
    rw [handle_enter rfl]
    exact .moved (h.opened hc rfl)
  · change Follows es ((machine o).handle (k + 3) .reenter c) _
    have hcur : (machine o).current c = .node := by simp only [Machine.current, hst]; rfl
    rw [handle_reenter hcur (leave_single hst rfl) rfl]
    have hq := hclosed.opened (q := .text (.node { offset := c.offset, opener := '/' }) .none)
      (l := .node) hc rfl
    rw [List.append_assoc] at hq
    exact .moved hq
  · exact follows_goTo (q := .operation _) h hc rfl rfl rfl rfl
  · exact follows_goTo (q := .list _) h hc rfl rfl rfl rfl
  · exact follows_goTo (q := .redirect _) h hc rfl rfl rfl rfl
  · change Follows es ((machine o).handle (k + 3) (.fail .unexpectedCharacter) c) _
    rw [handle_fail_unexpected hc hst]
    exact .failed (by rw [h.events, List.append_nil])

/-- A character that the owner hands back is read by the place below it. -/
theorem follows_handBack {p q : Place} {top next : Frame Label} {rest : List (Frame Label)}
    {move : Move} (h : At p es c) (hc : c.cursor = some ch) (hp : p.stack = top :: q.stack)
    (hq : q.stack = next :: rest) (hl : (Request.state top.state).onLeave = .skip)
    (hr : (Request.state next.state).onReturn = .resume)
    (hnext : ∀ {es' : List Event} {c' : Conf}, At q es' c' → c'.cursor = some ch →
      c'.offset = c.offset →
      Follows es' ((machine o).dispatch ((machine o).handle (k + 1)) c') move) :
    Follows es ((machine o).handle (k + 3) .handBack c)
      (after [.leaving top.state c.offset (some ch)] move) := by
  have hst : c.stack = top :: next :: rest := by rw [h.stack, hp, hq]
  rw [handle_handBack hst hl hr h.handedBack]
  exact (hnext (h.closed hc hp) hc rfl).cleared.after

theorem dispatch_nodeName {f g : Opening} (h : At (.text (.nodeName f g) .none) es c)
    (hc : c.cursor = some ch) :
    Follows es ((machine o).dispatch ((machine o).handle (k + 5)) c)
      (onText o c.offset ch (.nodeName f g)) := by
  refine dispatch_text h hc fun hm => ?_
  have hst : c.stack = [g.frame .nodeName, f.frame .node] := h.stack
  have hback : ch ≠ '=' → ch ≠ ')' → Follows es ((machine o).handle (k + 5) .handBack c)
      (onMark c.offset ch (.nodeName f g)) := by
    intro h₁ h₂
    have hnode : onText o c.offset ch (.node f) = endSegment c.offset ch := by
      rw [onText_of_mark (w := .node f) hm]
      simp only [onMark, if_neg h₁, if_neg h₂]
    simp only [onMark, if_neg h₁, if_neg h₂]
    refine follows_handBack (q := .text (.node f) .none) h hc rfl rfl rfl rfl ?_
    intro es' c' h' hc' ho'
    rw [← hnode, ← ho']
    exact dispatch_node h' hc'
  simp only [Owner.marks, List.mem_cons, List.not_mem_nil, or_false] at hm
  rcases hm with rfl | rfl | rfl | rfl | rfl | rfl
  · change Follows es ((machine o).handle (k + 5) (.fail .unexpectedCharacter) c) _
    rw [handle_fail_unexpected hc hst]
    exact .failed (by rw [h.events, List.append_nil])
  · exact hback (by decide) (by decide)
  · exact hback (by decide) (by decide)
  · exact hback (by decide) (by decide)
  · exact hback (by decide) (by decide)
  · change Follows es ((machine o).handle (k + 5) (.fail .unexpectedCharacter) c) _
    rw [handle_fail_unexpected hc hst]
    exact .failed (by rw [h.events, List.append_nil])

theorem dispatch_endList {f : Opening} (h : At (.list f) es c) (hc : c.cursor = some ')') :
    Follows es ((machine o).dispatch ((machine o).handle (k + 3)) c) (endList c.offset ')') := by
  have hcur : (machine o).current c = .propertyList := by simp only [Machine.current, h.stack]; rfl
  have hb : o.isBlank ')' = false := o.isBlank_of_isMark rfl
  rw [dispatch_eq _ hc, hcur, hb]
  exact follows_goTo h hc rfl rfl rfl rfl

theorem dispatch_property {f g : Opening} (h : At (.text (.property f g) .none) es c)
    (hc : c.cursor = some ch) :
    Follows es ((machine o).dispatch ((machine o).handle (k + 5)) c)
      (onText o c.offset ch (.property f g)) := by
  refine dispatch_text h hc fun hm => ?_
  have hst : c.stack = [g.frame .property, f.frame .propertyList] := h.stack
  simp only [Owner.marks, List.mem_cons, List.not_mem_nil, or_false] at hm
  rcases hm with rfl | rfl | rfl
  · change Follows es ((machine o).handle (k + 5) (.enter .propertyValue) c) _
    rw [handle_enter rfl]
    exact .moved (h.opened hc rfl)
  · change Follows es ((machine o).handle (k + 5) .reenter c) _
    have hcur : (machine o).current c = .property := by simp only [Machine.current, hst]; rfl
    have hclosed : At (.list f) (es ++ [Event.leaving .property c.offset (some ',')])
        (closed .property c) := h.closed hc rfl
    have hopened := hclosed.opened
      (q := .text (.property f { offset := c.offset, opener := ',' }) .none)
      (l := .property) hc rfl
    rw [List.append_assoc] at hopened
    rw [handle_reenter hcur (leave_quiet hst rfl (.inl rfl) h.handedBack) rfl]
    exact .moved hopened
  · refine follows_handBack (q := .list f) h hc rfl rfl rfl rfl ?_
    intro es' c' h' hc' ho'
    rw [← ho']
    exact dispatch_endList h' hc'

theorem follows_enterLiteral {f g v : Opening} (b : Bracket)
    (h : At (.text (.propertyValue f g v) .none) es c) (hc : c.cursor = some ch) :
    Follows es ((machine o).handle (k + 2) (.enter b.label) c)
      ([.entered b.label c.offset, .character b.label ch c.offset],
        .ok (.literal f g v b { offset := c.offset, opener := ch, forwarded := 1 } 0)) := by
  have hopened : At (.literal f g v b { offset := c.offset, opener := ch } 0)
      (es ++ [Event.entered b.label c.offset]) (opened b.label c) := h.opened hc rfl
  have hpassed : At (.literal f g v b { offset := c.offset, opener := ch, forwarded := 1 } 0)
      (es ++ [Event.entered b.label c.offset] ++ [Event.character b.label ch c.offset])
      (passed b.label ch (opened b.label c)) := hopened.passed rfl rfl
  have henter : (Request.state b.label).onEnter = .forward := by cases b <;> rfl
  have hforward : (machine o).forward (opened b.label c)
      = .ok () (passed b.label ch (opened b.label c)) :=
    forward_eq (c := opened b.label c) hc hopened.stack
  change Follows es ((machine o).enter ((machine o).handle (k + 1)) b.label c) _
  rw [enter_eq, henter]
  change Follows es ((machine o).forward (opened b.label c)) _
  rw [hforward]
  rw [List.append_assoc] at hpassed
  exact .moved hpassed

theorem dispatch_value {f g v : Opening} (h : At (.text (.propertyValue f g v) .none) es c)
    (hc : c.cursor = some ch) :
    Follows es ((machine o).dispatch ((machine o).handle (k + 7)) c)
      (onText o c.offset ch (.propertyValue f g v)) := by
  refine dispatch_text h hc fun hm => ?_
  have hst : c.stack = [v.frame .propertyValue, g.frame .property, f.frame .propertyList] :=
    h.stack
  have hback : ch ∈ (Owner.property f g).marks → ch ≠ '=' →
      Follows es ((machine o).handle (k + 7) .handBack c)
        (after [.leaving .propertyValue c.offset (some ch)] (endProperty c.offset ch f)) := by
    intro hm' hne
    have hprop : onText o c.offset ch (.property f g) = endProperty c.offset ch f := by
      rw [onText_of_mark hm']
      simp only [onMark, if_neg hne]
    refine follows_handBack (q := .text (.property f g) .none) h hc rfl rfl rfl rfl ?_
    intro es' c' h' hc' ho'
    rw [← hprop, ← ho']
    exact dispatch_property h' hc'
  simp only [Owner.marks, List.mem_cons, List.not_mem_nil, or_false] at hm
  rcases hm with rfl | rfl | rfl | rfl | rfl
  · exact hback (by simp [Owner.marks]) (by decide)
  · exact hback (by simp [Owner.marks]) (by decide)
  · exact follows_enterLiteral .brackets h hc
  · exact follows_enterLiteral .braces h hc
  · exact follows_enterLiteral .parens h hc

theorem stack_unescaped {w : Owner} {s : Shelter} (hs : s = .none ∨ ∃ q, s = .quotes q) :
    ∃ top rest, (Place.text w s).stack = top :: rest
      ∧ ((Request.state top.state).onReturn = .resume
        ∨ (Request.state top.state).onReturn = .skip) := by
  rcases hs with rfl | ⟨q, rfl⟩
  · cases w <;> exact ⟨_, _, rfl, .inl rfl⟩
  · exact ⟨_, _, rfl, .inr rfl⟩

theorem dispatch_escaped {w : Owner} {s : Shelter} {p : Place} {e : Opening}
    (hs : s = .none ∨ ∃ q, s = .quotes q) (hp : p.stack = e.frame .escape :: (text w s).stack)
    (h : At p es c) (hc : c.cursor = some ch) :
    Follows es ((machine o).dispatch ((machine o).handle (k + 3)) c)
      (onEscaped c.offset ch w s) := by
  obtain ⟨top, rest, hw, hret⟩ := stack_unescaped (w := w) hs
  have hst : c.stack = e.frame .escape :: (text w s).stack := h.stack.trans hp
  have hcur : (machine o).current c = .escape := by simp only [Machine.current, hst]; rfl
  have hkeep : (machine o).skipsBlanks c = false := by
    simp only [Machine.skipsBlanks, hcur]; rfl
  have hst' : (passed .escape ch c).stack = e.counted.frame .escape :: (text w s).stack := by
    simp only [passed, Config.mapTop, hst]; rfl
  have hfwd : (machine o).forward c = .ok () (passed .escape ch c) := forward_eq hc hst
  have hb : (passed .escape ch c).handedBack = false := by simp [passed, h.handedBack]
  have hleave : (machine o).leave ((machine o).handle (k + 1)) (passed .escape ch c)
      = .ok () (closed .escape (passed .escape ch c)) := by
    rw [hw] at hst'
    exact leave_quiet hst' rfl hret hb
  rw [dispatch_eq _ hc, hcur, hkeep, Bool.and_false, if_neg (by simp)]
  change Follows es (((machine o).forward >>= fun _ =>
    (machine o).leave ((machine o).handle (k + 1)) >>= fun _ => pure ()) c) _
  simp only [Run.bind_apply, hfwd, hleave, Run.pure_apply]
  refine .moved ⟨?_, hb, ?_⟩
  · simp [closed, Config.pop, Config.note, hst']
  · simp [closed, passed, h.events, hc]

theorem dispatch_quoted {w : Owner} {q : Opening} (h : At (.text w (.quotes q)) es c)
    (hc : c.cursor = some ch) :
    Follows es ((machine o).dispatch ((machine o).handle (k + 2)) c)
      (onQuoted o c.offset ch w q) := by
  obtain ⟨top, rest, hw, hret⟩ := stack_unescaped (w := w) (s := .none) (.inl rfl)
  have hst : c.stack = q.frame .quotes :: w.stack := h.stack
  have hcur : (machine o).current c = .quotes := by simp only [Machine.current, hst]; rfl
  have hkeep : (machine o).skipsBlanks c = false := by
    simp only [Machine.skipsBlanks, hcur]; rfl
  have hpass : Follows es ((machine o).forward c)
      ([.character .quotes ch c.offset], .ok (.text w (.quotes q.counted))) := by
    rw [forward_eq hc hst]
    exact .moved (h.passed rfl rfl)
  rw [dispatch_eq _ hc, hcur, hkeep, Bool.and_false, if_neg (by simp)]
  unfold onQuoted
  split
  · rename_i hq
    subst hq
    have hw' : w.stack = top :: rest := hw
    have hleave : (machine o).leave ((machine o).handle (k + 1)) c
        = .ok () (closed .quotes c) := by
      rw [hw'] at hst
      exact leave_quiet hst rfl hret h.handedBack
    change Follows es ((machine o).leave ((machine o).handle (k + 1)) c) _
    rw [hleave]
    exact .moved (h.closed hc rfl)
  split
  · rename_i hb
    simp only [Bool.and_eq_true, decide_eq_true_eq] at hb
    obtain ⟨rfl, hrule⟩ := hb
    change Follows es ((machine o).handle (k + 2) (.escape .escape) c) _
    rw [handle_escape hrule, handle_enter rfl]
    exact .moved (h.opened hc rfl)
  · rename_i hq hb
    by_cases hbs : ch = '\\'
    · subst hbs
      change Follows es ((machine o).handle (k + 2) (.escape .escape) c) _
      rw [handle_escape_verbatim (by simpa using hb)]
      exact hpass
    · have hother : (Request.state .quotes).actionFor ch = .forward :=
        State.actionFor_of_notMem (by simp [Request.state, hq, hbs])
      rw [hother]
      exact hpass

theorem At.nested {f g v : Opening} {b : Bracket} {q : Opening} {depth depth' : Nat}
    (h : At (.literal f g v b q depth) es c) {m : Frame Label → Frame Label}
    (hm : m { q.frame b.label with depth } = { q.frame b.label with depth := depth' }) :
    At (.literal f g v b q depth') es (c.mapTop m) where
  stack := by
    have hst : c.stack = { q.frame b.label with depth } :: (Owner.propertyValue f g v).stack :=
      h.stack
    simp only [Config.mapTop, hst, hm]
    rfl
  handedBack := by rw [Config.mapTop_handedBack, h.handedBack]
  events := by rw [Config.mapTop_consumer, h.events]

theorem follows_forwardLiteral {f g v : Opening} {b : Bracket} {q : Opening} {depth : Nat}
    (h : At (.literal f g v b q depth) es c) (hc : c.cursor = some ch) :
    Follows es ((machine o).forward c)
      ([.character b.label ch c.offset], .ok (.literal f g v b q.counted depth)) := by
  rw [forward_eq hc h.stack]
  exact .moved (h.passed rfl rfl)

theorem follows_leaveLiteral {f g v : Opening} {b : Bracket} {q : Opening} {depth : Nat}
    (h : At (.literal f g v b q depth) es c) (hc : c.cursor = some ch) :
    Follows es (((machine o).forward >>= fun _ => (machine o).leave ((machine o).handle (k + 1))) c)
      ([.character b.label ch c.offset, .leaving b.label c.offset (some ch)],
        .ok (.text (.propertyValue f g v) .none)) := by
  have hpassed : At (.literal f g v b q.counted depth) (es ++ [Event.character b.label ch c.offset])
      (passed b.label ch c) := h.passed rfl rfl
  have hcur : (passed b.label ch c).cursor = some ch := by simp [passed, hc]
  have hoff : (passed b.label ch c).offset = c.offset := by simp [passed]
  have hfwd : (machine o).forward c = .ok () (passed b.label ch c) := forward_eq hc h.stack
  have hskip : (Request.state b.label).onLeave = .skip := by cases b <;> rfl
  have hleave : (machine o).leave ((machine o).handle (k + 1)) (passed b.label ch c)
      = .ok () (closed b.label (passed b.label ch c)) :=
    leave_quiet hpassed.stack hskip (.inl rfl) hpassed.handedBack
  have hclosed : At (.text (.propertyValue f g v) .none)
      (es ++ [Event.character b.label ch c.offset] ++ [Event.leaving b.label c.offset (some ch)])
      (closed b.label (passed b.label ch c)) := by
    have hclosed := hpassed.closed (q := .text (.propertyValue f g v) .none) (l := b.label) hcur rfl
    rwa [hoff] at hclosed
  simp only [Run.bind_apply, hfwd, hleave]
  rw [List.append_assoc] at hclosed
  exact .moved hclosed

theorem dispatch_literal {f g v : Opening} {b : Bracket} {q : Opening} {depth : Nat}
    (h : At (.literal f g v b q depth) es c) (hc : c.cursor = some ch) :
    Follows es ((machine o).dispatch ((machine o).handle (k + 2)) c)
      (onLiteral c.offset ch f g v b q depth) := by
  have hst : c.stack = { q.frame b.label with depth } :: (Owner.propertyValue f g v).stack :=
    h.stack
  have hcur : (machine o).current c = b.label := by simp only [Machine.current, hst]; rfl
  have hkeep : (machine o).skipsBlanks c = false := by
    have hblanks : ((machine o).state b.label).blanks = .keep := by cases b <;> rfl
    simp only [Machine.skipsBlanks, hcur, hblanks]
  rw [dispatch_eq _ hc, hcur, hkeep, Bool.and_false, if_neg (by simp)]
  unfold onLiteral
  split
  · rename_i hop
    have hact : (Request.state b.label).actionFor ch = .openNested := by
      subst hop
      cases b <;> rfl
    have hn : At (.literal f g v b q (depth + 1)) es
        (c.mapTop fun top => { top with depth := top.depth + 1 }) := h.nested rfl
    rw [hact, ← Config.mapTop_offset fun top => { top with depth := top.depth + 1 }]
    exact follows_forwardLiteral hn (by rw [Config.mapTop_cursor, hc])
  split
  · rename_i hop hcl
    have hact : (Request.state b.label).actionFor ch = .closeNested := by
      subst hcl
      cases b <;> rfl
    have hany : c.stack.head?.any (0 < ·.depth) = decide (0 < depth) := by rw [hst]; rfl
    have hclose : (machine o).handle (k + 2) .closeNested c =
        if 0 < depth then
          (machine o).forward (c.mapTop fun top => { top with depth := top.depth - 1 })
        else
          ((machine o).forward >>= fun _ => (machine o).leave ((machine o).handle (k + 1))) c := by
      change (if c.stack.head?.any (0 < ·.depth) = true then _ else _ : Run _ _ Unit) c = _
      rw [hany]
      by_cases hdepth : 0 < depth
      · rw [decide_eq_true hdepth, if_pos rfl, if_pos hdepth]
        rfl
      · rw [decide_eq_false hdepth, if_neg Bool.false_ne_true, if_neg hdepth]
    rw [hact, hclose]
    split
    · have hn : At (.literal f g v b q (depth - 1)) es
          (c.mapTop fun top => { top with depth := top.depth - 1 }) := h.nested rfl
      rw [← Config.mapTop_offset fun top => { top with depth := top.depth - 1 }]
      exact follows_forwardLiteral hn (by rw [Config.mapTop_cursor, hc])
    · exact follows_leaveLiteral h hc
  · rename_i hop hcl
    have hact : (Request.state b.label).actionFor ch = .forward :=
      (State.actionFor_of_notMem (by
        cases b <;> simp_all [Request.state, Request.literal, Bracket.label, Bracket.opener,
          Bracket.closer])).trans (by cases b <;> rfl)
    rw [hact]
    exact follows_forwardLiteral h hc

end Texts

/-! ## The other parts -/

section Parts

variable {o : Options} {c : Conf} {ch : Char} {k : Nat} {f g : Opening} {es : List Event}

theorem handle_requireContent {top : Frame Label} {rest : List (Frame Label)} (fault : Fault)
    (hst : c.stack = top :: rest) :
    (machine o).handle (k + 1) (.requireContent fault) c =
      if top.forwarded = 0 then (machine o).fail fault c else .ok () c := by
  have hfwd : c.forwarded = top.forwarded := by simp only [Config.forwarded, hst]
  change (if c.forwarded = 0 then (machine o).fail fault else pure () : Run _ _ Unit) c = _
  rw [hfwd]
  split <;> rfl

def leavingOperation (c : Conf) : Conf :=
  { c with consumer := c.consumer.push (.leaving .operationName c.offset c.cursor) }

/-- An operation cannot be left before it has a character. -/
theorem leave_operation_empty (h : At (.operation f) es c) (hf : f.forwarded = 0) :
    (machine o).leave ((machine o).handle (k + 1)) c =
      .error (.failed { cause := .emptyOperationName, offset := f.offset, state := .operationName
                        found := c.cursor }) (leavingOperation c) := by
  have hst : (leavingOperation c).stack = [f.frame .operationName] := h.stack
  have hreq : (machine o).handle (k + 1) (.requireContent .emptyOperationName) (leavingOperation c)
      = .error (.failed { cause := .emptyOperationName, offset := f.offset
                          state := .operationName, found := c.cursor }) (leavingOperation c) := by
    rw [handle_requireContent _ hst, if_pos (by exact hf)]
    simp only [Machine.fail, Machine.diagnose, Machine.errorAt, Machine.label, Machine.current, hst]
    rfl
  have hleave : (machine o).leave ((machine o).handle (k + 1)) c
      = ((machine o).handle (k + 1) (.requireContent .emptyOperationName) >>= fun _ =>
          modify (fun c => c.pop.note (.left .operationName c.offset)) >>= fun _ =>
            (machine o).returned ((machine o).handle (k + 1))) (leavingOperation c) := by
    have hst' : c.stack = [f.frame .operationName] := h.stack
    simp only [Machine.leave, Run.bind_apply, Run.get_apply, hst']
    rfl
  rw [hleave, Run.bind_apply, hreq]

theorem leave_operation (h : At (.operation f) es c) (hf : f.forwarded ≠ 0) :
    (machine o).leave ((machine o).handle (k + 1)) c = .ok () (closed .operationName c) := by
  have hst : c.stack = [f.frame .operationName] := h.stack
  have hst' : (leavingOperation c).stack = [f.frame .operationName] := h.stack
  have hleave : (machine o).leave ((machine o).handle (k + 1)) c
      = ((machine o).handle (k + 1) (.requireContent .emptyOperationName) >>= fun _ =>
          modify (fun c => c.pop.note (.left .operationName c.offset)) >>= fun _ =>
            (machine o).returned ((machine o).handle (k + 1))) (leavingOperation c) := by
    simp only [Machine.leave, Run.bind_apply, Run.get_apply, hst]
    rfl
  rw [hleave, Run.bind_apply, handle_requireContent _ hst', if_neg (by exact hf)]
  simp only [Run.bind_apply, Run.modify_apply]
  exact returned_nil _ (by simp [Config.pop, Config.note, hst'])

theorem follows_endOperation {l : Label} {q : Place} (h : At (.operation f) es c)
    (hc : c.cursor = some ch) (he : (Request.state l).onEnter = .skip)
    (hq : q.stack = [({ offset := c.offset, opener := ch } : Opening).frame l]) :
    Follows es ((machine o).handle (k + 3) (Request.goTo l) c)
      (endOperation c.offset ch f l q) := by
  change Follows es (((machine o).leave ((machine o).handle (k + 1)) >>= fun _ =>
    (machine o).handle (k + 2) (.enter l) >>= fun _ => pure ()) c) _
  unfold endOperation
  split
  · rename_i hf
    rw [Run.bind_apply, leave_operation_empty h hf, hc]
    exact .failed (by simp [leavingOperation, h.events, hc])
  · rename_i hf
    have hclosed : At .start (es ++ [Event.leaving .operationName c.offset (some ch)])
        (closed .operationName c) := h.closed hc rfl
    have hopened := hclosed.opened (q := q) (l := l) hc hq
    rw [List.append_assoc] at hopened
    simp only [Run.bind_apply, leave_operation h hf, handle_enter he, Run.pure_apply]
    exact .moved hopened

theorem dispatch_operation (h : At (.operation f) es c) (hc : c.cursor = some ch) :
    Follows es ((machine o).dispatch ((machine o).handle (k + 3)) c)
      (onOperation o c.offset ch f) := by
  have hst : c.stack = [f.frame .operationName] := h.stack
  have hcur : (machine o).current c = .operationName := by simp only [Machine.current, hst]; rfl
  have hskip : (machine o).skipsBlanks c = decide (f.forwarded = 0) := by
    simp only [Machine.skipsBlanks, hcur, Config.forwarded, hst]; rfl
  rw [dispatch_eq _ hc, hcur, hskip]
  unfold onOperation
  split
  · exact .moved ⟨h.stack, h.handedBack, by rw [h.events, List.append_nil]⟩
  split
  · rename_i hch
    subst hch
    exact follows_endOperation h hc rfl rfl
  split
  · rename_i hch
    subst hch
    exact follows_endOperation h hc rfl rfl
  split
  · rename_i hch
    have hact : (Request.state .operationName).actionFor ch = .fail .unexpectedCharacter := by
      simp only [List.mem_cons, List.not_mem_nil, or_false] at hch
      rcases hch with rfl | rfl | rfl | rfl <;> rfl
    rw [hact, handle_fail_unexpected hc hst]
    exact .failed (by rw [h.events, List.append_nil])
  · rename_i h₁ h₂ h₃
    have hact : (Request.state .operationName).actionFor ch = .forward :=
      State.actionFor_of_notMem (by simp_all [Request.state])
    rw [hact]
    change Follows es ((machine o).forward c) _
    rw [forward_eq hc hst]
    exact .moved (h.passed rfl rfl)

theorem dispatch_list (h : At (.list f) es c) (hc : c.cursor = some ch) :
    Follows es ((machine o).dispatch ((machine o).handle (k + 7)) c)
      (next o c.offset ch (.list f)) := by
  have hst : c.stack = [f.frame .propertyList] := h.stack
  have hcur : (machine o).current c = .propertyList := by simp only [Machine.current, hst]; rfl
  have hskip : (machine o).skipsBlanks c = true := by simp only [Machine.skipsBlanks, hcur]; rfl
  have hopened : At (.text (.property f { offset := c.offset, opener := ch }) .none)
      (es ++ [Event.entered .property c.offset]) (opened .property c) := h.opened hc rfl
  by_cases hcl : ch = ')'
  · subst hcl
    have hb : o.isBlank ')' = false := o.isBlank_of_isMark rfl
    simpa [next, hb] using dispatch_endList h hc
  rw [dispatch_eq _ hc, hcur, hskip, Bool.and_true]
  simp only [next]
  split
  · exact .moved ⟨h.stack, h.handedBack, by rw [h.events, List.append_nil]⟩
  · have hact : (Request.state .propertyList).actionFor ch = Request.start .property :=
      State.actionFor_of_notMem (by simp [Request.state, hcl])
    rw [hact, handle_start rfl]
    exact (dispatch_property hopened hc).after

theorem dispatch_requestEnd (h : At (.requestEnd f) es c) (hc : c.cursor = some ch) :
    Follows es ((machine o).dispatch ((machine o).handle (k + 3)) c)
      (next o c.offset ch (.requestEnd f)) := by
  have hst : c.stack = [f.frame .requestEnd] := h.stack
  have hcur : (machine o).current c = .requestEnd := by simp only [Machine.current, hst]; rfl
  have hskip : (machine o).skipsBlanks c = true := by simp only [Machine.skipsBlanks, hcur]; rfl
  rw [dispatch_eq _ hc, hcur, hskip, Bool.and_true]
  simp only [next]
  split
  · exact .moved ⟨h.stack, h.handedBack, by rw [h.events, List.append_nil]⟩
  split
  · rename_i hch
    subst hch
    exact follows_goTo (q := .redirect _) h hc rfl rfl rfl rfl
  · rename_i hch
    have hact : (Request.state .requestEnd).actionFor ch = .fail .unexpectedCharacter :=
      State.actionFor_of_notMem (by simp [Request.state, hch])
    rw [hact, handle_fail_unexpected hc hst]
    exact .failed (by rw [h.events, List.append_nil])

theorem dispatch_target (h : At (.target f g) es c) (hc : c.cursor = some ch) :
    Follows es ((machine o).dispatch ((machine o).handle (k + 1)) c)
      (onTarget o c.offset ch f g) := by
  have hst : c.stack = [g.frame .outputTarget, f.frame .outputRedirect] := h.stack
  have hcur : (machine o).current c = .outputTarget := by simp only [Machine.current, hst]; rfl
  have hskip : (machine o).skipsBlanks c = decide (g.forwarded = 0) := by
    simp only [Machine.skipsBlanks, hcur, Config.forwarded, hst]; rfl
  rw [dispatch_eq _ hc, hcur, hskip]
  unfold onTarget
  split
  · exact .moved ⟨h.stack, h.handedBack, by rw [h.events, List.append_nil]⟩
  · change Follows es ((machine o).forward c) _
    rw [forward_eq hc hst]
    exact .moved (h.passed rfl rfl)

theorem dispatch_redirect (h : At (.redirect f) es c) (hc : c.cursor = some ch) :
    Follows es ((machine o).dispatch ((machine o).handle (k + 3)) c)
      (next o c.offset ch (.redirect f)) := by
  have hst : c.stack = [f.frame .outputRedirect] := h.stack
  have hcur : (machine o).current c = .outputRedirect := by simp only [Machine.current, hst]; rfl
  have hskip : (machine o).skipsBlanks c = false := by simp only [Machine.skipsBlanks, hcur]; rfl
  have hfwd : c.forwarded = f.forwarded := by simp only [Config.forwarded, hst]; rfl
  rw [dispatch_eq _ hc, hcur, hskip, Bool.and_false, if_neg (by simp)]
  simp only [next]
  split
  · rename_i hch
    subst hch
    change Follows es ((if c.forwarded = 0 then (machine o).forward
      else (machine o).fail .unexpectedCharacter : Run _ _ Unit) c) _
    rw [hfwd]
    split
    · rw [forward_eq hc hst]
      exact .moved (h.passed rfl rfl)
    · change Follows es ((machine o).handle (k + 1) (.fail .unexpectedCharacter) c) _
      rw [handle_fail_unexpected hc hst]
      exact .failed (by rw [h.events, List.append_nil])
  · rename_i hch
    have hact : (Request.state .outputRedirect).actionFor ch = Request.start .outputTarget :=
      State.actionFor_of_notMem (by simp [Request.state, hch])
    have hopened : At (.target f { offset := c.offset, opener := ch })
        (es ++ [Event.entered .outputTarget c.offset]) (opened .outputTarget c) := h.opened hc rfl
    rw [hact, handle_start rfl]
    exact (dispatch_target hopened hc).after

theorem dispatch_start (h : At .start es c) (hc : c.cursor = some ch) :
    Follows es ((machine o).dispatch ((machine o).handle (k + 5)) c)
      (next o c.offset ch .start) := by
  have hst : c.stack = [] := h.stack
  have hcur : (machine o).current c = .initial := by simp only [Machine.current, hst]; rfl
  have hskip : (machine o).skipsBlanks c = true := by simp only [Machine.skipsBlanks, hcur]; rfl
  rw [dispatch_eq _ hc, hcur, hskip, Bool.and_true]
  simp only [next]
  split
  · exact .moved ⟨h.stack, h.handedBack, by rw [h.events, List.append_nil]⟩
  split
  · rename_i hch
    subst hch
    have hpass : At .start (es ++ [Event.character .initial '/' c.offset])
        (passed .initial '/' c) :=
      ⟨by simp only [passed, Config.mapTop, hst]; rfl, by simp [passed, h.handedBack],
        by simp [passed, h.events]⟩
    have hc' : (passed .initial '/' c).cursor = some '/' := by simp [passed, hc]
    have hoff : (passed .initial '/' c).offset = c.offset := by simp [passed]
    have hopened := hpass.opened (q := .text (.node { offset := c.offset, opener := '/' }) .none)
      (l := .node) hc' (by rw [hoff]; rfl)
    have henter : (machine o).handle (k + 4) (.enter .node) (passed .initial '/' c)
        = .ok () (opened .node (passed .initial '/' c)) := handle_enter rfl
    rw [List.append_assoc, hoff] at hopened
    change Follows es (((machine o).forward >>= fun _ =>
      (machine o).handle (k + 4) (.enter .node) >>= fun _ => pure ()) c) _
    simp only [Run.bind_apply, forward_current hc hcur, henter, Run.pure_apply]
    exact .moved hopened
  split
  · rename_i hch
    subst hch
    change Follows es ((machine o).handle (k + 5) (.enter .operationName) c) _
    rw [handle_enter rfl]
    exact .moved (h.opened hc rfl)
  split
  · rename_i hch
    subst hch
    change Follows es ((machine o).handle (k + 5) (.enter .propertyList) c) _
    rw [handle_enter rfl]
    exact .moved (h.opened hc rfl)
  split
  · rename_i hch
    subst hch
    change Follows es ((machine o).handle (k + 5) (.enter .outputRedirect) c) _
    rw [handle_enter rfl]
    exact .moved (h.opened hc rfl)
  · rename_i h₁ h₂ h₃ h₄
    have hact : (Request.state .initial).actionFor ch = Request.start .node :=
      State.actionFor_of_notMem (by simp [Request.state, h₁, h₂, h₃, h₄])
    have hopened : At (.text (.node { offset := c.offset, opener := ch }) .none)
        (es ++ [Event.entered .node c.offset]) (opened .node c) := h.opened hc rfl
    rw [hact, handle_start rfl]
    exact (dispatch_node hopened hc).after

end Parts

section Characters

variable {o : Options} {c : Conf} {es : List Event}

/-- The machine at the place `p` does with a character what `Place.next` says. -/
theorem advance_follows {p : Place} (h : At p es c) (n : Nat) (ch : Char) :
    Follows es ((machine o).advance Request.bound n ch c) (p.next o n ch) := by
  have hat : At p es { c with offset := n, cursor := some ch } :=
    ⟨h.stack, h.handedBack, h.events⟩
  change Follows es ((machine o).dispatch ((machine o).handle Request.bound)
    { c with offset := n, cursor := some ch }) _
  cases p with
  | start => exact dispatch_start hat rfl
  | text w s =>
    cases s with
    | none =>
      cases w with
      | node f => exact dispatch_node hat rfl
      | nodeName f g => exact dispatch_nodeName hat rfl
      | property f g => exact dispatch_property hat rfl
      | propertyValue f g v => exact dispatch_value hat rfl
    | escape e => exact dispatch_escaped (.inl rfl) rfl hat rfl
    | quotes q => exact dispatch_quoted hat rfl
    | quotesEscape q e => exact dispatch_escaped (.inr ⟨q, rfl⟩) rfl hat rfl
  | literal f g v b q depth => exact dispatch_literal hat rfl
  | operation f => exact dispatch_operation hat rfl
  | list f => exact dispatch_list hat rfl
  | requestEnd f => exact dispatch_requestEnd hat rfl
  | redirect f => exact dispatch_redirect hat rfl
  | target f g => exact dispatch_target hat rfl

theorem feed_follows {p : Place} (h : At p es c) (n : Nat) (cs : List Char) :
    Follows es ((machine o).feed Request.bound n cs c) (p.feed o n cs) := by
  induction cs generalizing p es c n with
  | nil => exact .moved ⟨h.stack, h.handedBack, by rw [h.events, List.append_nil]⟩
  | cons ch cs ih =>
    have hstep := advance_follows (o := o) h n ch
    simp only [Machine.feed, Run.bind_apply, feed]
    generalize p.next o n ch = move at hstep
    generalize (machine o).advance Request.bound n ch c = r at hstep
    cases hstep with
    | moved h' => exact (ih h' (n + ch.utf8Size)).after
    | failed h' => exact .failed h'

end Characters

end Place

end RequestLine
