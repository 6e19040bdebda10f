import RequestLine.Proofs.Running

/-!
# Runs side by side

Two runs of one table over the same line, with other options or with more room for actions to nest,
stay together step by step until the one comes to something that the other does differently.
`Machine.Alongside` collects what has to hold for that, `Machine.Alongside.perform` carries it
through one action, and the runs of a line follow by induction (`Machine.Alongside.read`).

The first use is the bound of a run, which is no part of what a table means: it only says how long
to wait. A run that is not exhausted within one bound goes the same way within every larger one
(`Machine.run_mono`), so a machine has at most one report on a line (`Machine.Returns.unique`), and
`Machine.Returns` says that it has it without naming a bound.
-/

namespace RequestLine

variable {ρ σ : Type}

/-- Two classes that agree on the characters of a text cut it at the same place. -/
theorem Text.span_congr {p q : Char → Bool} {cs : List Char} (h : ∀ ch ∈ cs, p ch = q ch) :
    cs.takeWhile p = cs.takeWhile q ∧ cs.dropWhile p = cs.dropWhile q := by
  induction cs with
  | nil => exact ⟨rfl, rfl⟩
  | cons ch cs ih =>
    obtain ⟨htake, hdrop⟩ := ih fun ch' hch' => h ch' (List.mem_cons_of_mem ch hch')
    simp only [List.takeWhile_cons, List.dropWhile_cons, h ch List.mem_cons_self, htake, hdrop,
      and_self]

namespace Run

/-- The run ended in a way that another one, with `d` more to spend, need not follow: the consumer
has come to `B`, or the run was exhausted. -/
def Excused (B : σ → Prop) (d : Nat) (r : EStateM.Result Stop (Config ρ σ) Unit) : Prop :=
  B (final r).consumer ∨ 0 < d ∧ ∃ c, r = .error .exhausted c

/-- The cursor is on no character but those of `P`. -/
def InSight (P : Char → Prop) (c : Config ρ σ) : Prop :=
  ∀ ch, c.cursor = some ch → P ch

/-- A step from `c` keeps the cursor in sight, and a consumer that has come to `B` stays there. -/
def Steady (P : Char → Prop) (B : σ → Prop) (c : Config ρ σ)
    (r : EStateM.Result Stop (Config ρ σ) Unit) : Prop :=
  (InSight P c → InSight P (final r)) ∧ (B c.consumer → B (final r).consumer)

/-- From `c` the run `y` goes as the steady run `x` does, unless it is excused. -/
def PairedAt (P : Char → Prop) (B : σ → Prop) (d : Nat) (y x : Run ρ σ Unit) (c : Config ρ σ) :
    Prop :=
  InSight P c → Steady P B c (x c) ∧ (Excused B d (x c) ∨ y c = x c)

def Paired (P : Char → Prop) (B : σ → Prop) (d : Nat) (y x : Run ρ σ Unit) : Prop :=
  ∀ c, PairedAt P B d y x c

variable {P : Char → Prop} {B : σ → Prop} {d : Nat} {x y f g : Run ρ σ Unit} {c c' : Config ρ σ}

theorem Steady.of_ok (hcursor : c'.cursor = c.cursor) (hconsumer : c'.consumer = c.consumer) :
    Steady P B c (.ok () c') := by
  refine ⟨fun h ch hch => h ch ?_, fun h => ?_⟩
  · rw [← hcursor]
    exact hch
  · rw [← hconsumer] at h
    exact h

theorem Steady.trans {r : EStateM.Result Stop (Config ρ σ) Unit} (h : Steady P B c (.ok () c'))
    (h' : Steady P B c' r) : Steady P B c r :=
  ⟨fun hc => h'.1 (h.1 hc), fun hc => h'.2 (h.2 hc)⟩

theorem PairedAt.same (h : Steady P B c (x c)) : PairedAt P B d x x c :=
  fun _ => ⟨h, .inr rfl⟩

theorem PairedAt.bind (h : PairedAt P B d y x c) (hf : Paired P B d g f) :
    PairedAt P B d (y >>= fun _ => g) (x >>= fun _ => f) c := by
  intro hc
  obtain ⟨hsteady, hxy⟩ := h hc
  rw [bind_apply, bind_apply]
  rcases hx : x c with ⟨_, c'⟩ | ⟨stop, c'⟩ <;> rw [hx] at hsteady hxy
  · obtain ⟨hsteady', hfg⟩ := hf c' (hsteady.1 hc)
    refine ⟨hsteady.trans hsteady', ?_⟩
    rcases hxy with (hB | ⟨-, _, hstop⟩) | heq
    · exact .inl (.inl (hsteady'.2 hB))
    · cases hstop
    · rw [heq]
      exact hfg
  · refine ⟨hsteady, hxy.imp_right fun heq => ?_⟩
    rw [heq]

theorem Paired.bind (h : Paired P B d y x) (hf : Paired P B d g f) :
    Paired P B d (y >>= fun _ => g) (x >>= fun _ => f) :=
  fun c => (h c).bind hf

theorem PairedAt.get {f g : Config ρ σ → Run ρ σ Unit} (h : PairedAt P B d (g c) (f c) c) :
    PairedAt P B d (MonadState.get >>= g) (MonadState.get >>= f) c :=
  h

end Run

namespace Machine

variable {m : Machine ρ σ} {o : Options} {P : Char → Prop} {B : σ → Prop} {G : Action ρ → Prop}
  {d : Nat} {self self' : Action ρ → Run ρ σ Unit}

/-- The machine with other options. -/
def under (m : Machine ρ σ) (o : Options) : Machine ρ σ :=
  { m with options := o }

/-- At `c` the action `a` can be run under other options: it does not ask for them, or it brings the
consumer to `B`. -/
def Apt (m : Machine ρ σ) (B : σ → Prop) (G : Action ρ → Prop) (c : Config ρ σ) (a : Action ρ) :
    Prop :=
  G a ∨ ∀ self, B (Run.final (m.perform self a c)).consumer

/-- While the cursor is on characters of `P`, the machine goes the same way under the options `o`,
at least until its consumer has come to `B`. The actions that do not ask for the escape rule are
those of `G`. -/
structure Alongside (m : Machine ρ σ) (o : Options) (P : Char → Prop) (B : σ → Prop)
    (G : Action ρ → Prop) : Prop where
  isBlank : ∀ {ch}, P ch → o.isBlank ch = m.options.isBlank ch
  lenientBrackets : o.lenientBrackets = m.options.lenientBrackets
  sink : ∀ e {s}, B s → B (match m.sink e s with | .ok _ t => t | .error _ t => t)
  escape : ∀ {s}, G (.escape s) → o.escapeRule = m.options.escapeRule
  sequence : ∀ {as}, G (.sequence as) → ∀ a ∈ as, G a
  onEnter : ∀ s, G (m.state s).onEnter
  onLeave : ∀ s, G (m.state s).onLeave
  onReturn : ∀ s, G (m.state s).onReturn
  onEnd : ∀ s, G (m.state s).onEnd
  actionFor : ∀ {c ch}, P ch → c.cursor = some ch →
    m.Apt B G c ((m.state (m.current c)).actionFor ch)

/-- Nothing that the machine does undoes `B`. -/
theorem Alongside.upheld (ha : m.Alongside o P B G) : m.Upheld (Run.Steady P B) where
  refl _ := .of_ok rfl rfl
  trans := .trans
  exhausted _ := ⟨id, id⟩
  report {c e} _ := by
    unfold report
    split <;> rename_i hs
    all_goals
      refine ⟨id, fun hB => ?_⟩
      have htaken := ha.sink e hB
      rw [hs] at htaken
      exact htaken
  fail f c := by
    unfold fail
    split
    · exact .of_ok rfl rfl
    · exact ⟨id, id⟩
  handedBack _ _ := .of_ok rfl rfl
  top c f _ _ := .of_ok (c.mapTop_cursor f) (c.mapTop_consumer f)
  push _ _ := .of_ok rfl rfl
  pop _ _ := .of_ok rfl rfl

theorem Alongside.fail (ha : m.Alongside o P B G) (f : Fault) : (m.under o).fail f = m.fail f := by
  have hdiagnose : ∀ c, (m.under o).diagnose c f = m.diagnose c f := by
    intro c
    cases f <;> simp only [diagnose, under, ha.lenientBrackets]
  funext c
  simp only [Machine.fail, hdiagnose]
  rfl

theorem Alongside.forward (ha : m.Alongside o P B G) :
    Run.Paired P B d (m.under o).forward m.forward :=
  fun c => .same (ha.upheld.forward c)

theorem Alongside.forM (ha : m.Alongside o P B G) {f g : Action ρ → Run ρ σ Unit} :
    ∀ {as : List (Action ρ)}, (∀ a ∈ as, Run.Paired P B d (g a) (f a)) →
      Run.Paired P B d (as.forM g) (as.forM f)
  | [], _ => fun c => .same (ha.upheld.refl c)
  | a :: _, hf => (hf a List.mem_cons_self).bind
      (ha.forM fun b hb => hf b (List.mem_cons_of_mem a hb))

section Steps

/-! The actions that a step calls for are paired where they are apt. -/

variable (ha : m.Alongside o P B G)
  (h : ∀ a c, m.Apt B G c a → Run.PairedAt P B d (self' a) (self a) c)
include ha h

theorem Alongside.dispatch : Run.Paired P B d ((m.under o).dispatch self') (m.dispatch self) := by
  refine fun c hc => ?_
  rcases hcursor : c.cursor with _ | ch
  · have hquiet : m.dispatch self c = .ok () c ∧ (m.under o).dispatch self' c = .ok () c := by
      simp [Machine.dispatch, Run.bind_apply, Run.get_apply, Run.pure_apply, hcursor]
    rw [hquiet.1, hquiet.2]
    exact ⟨.of_ok rfl rfl, .inr rfl⟩
  · have hP : P ch := hc ch hcursor
    have hblank : (m.under o).options.isBlank ch = m.options.isBlank ch := ha.isBlank hP
    have hskips : (m.under o).skipsBlanks c = m.skipsBlanks c := rfl
    have hm : m.dispatch self c = if m.options.isBlank ch && m.skipsBlanks c then .ok () c
        else self ((m.state (m.current c)).actionFor ch) c := by
      simp only [Machine.dispatch, Run.bind_apply, Run.get_apply, hcursor]
      split <;> rfl
    have hm' : (m.under o).dispatch self' c
        = if m.options.isBlank ch && m.skipsBlanks c then .ok () c
          else self' ((m.state (m.current c)).actionFor ch) c := by
      simp only [Machine.dispatch, Run.bind_apply, Run.get_apply, hcursor, hblank, hskips]
      split <;> rfl
    rw [hm, hm']
    split
    · exact ⟨.of_ok rfl rfl, .inr rfl⟩
    · exact h _ c (ha.actionFor hP hcursor) hc

theorem Alongside.enter (s : ρ) :
    Run.Paired P B d ((m.under o).enter self' s) (m.enter self s) := by
  intro c
  have hreport : Run.PairedAt P B d ((m.under o).report (.entered (m.state s).label c.offset))
      (m.report (.entered (m.state s).label c.offset)) c := .same (ha.upheld.report rfl)
  refine .get (hreport.bind ?_)
  refine Run.Paired.bind (fun c => .same (ha.upheld.push c s)) fun c => h _ c (.inl (ha.onEnter s))

theorem Alongside.returned : Run.Paired P B d ((m.under o).returned self') (m.returned self) := by
  refine fun c => .get ?_
  split
  · exact .same (ha.upheld.refl c)
  · exact h _ c (.inl (ha.onReturn _))

theorem Alongside.leave : Run.Paired P B d ((m.under o).leave self') (m.leave self) := by
  refine fun c => .get ?_
  split
  · rw [ha.fail]
    exact .same (ha.upheld.fail _ c)
  · rename_i top rest hst
    have hl : (m.state top.state).label = m.label c := by simp only [label, current, hst]
    have hreport : Run.PairedAt P B d
        ((m.under o).report (.leaving (m.state top.state).label c.offset c.cursor))
        (m.report (.leaving (m.state top.state).label c.offset c.cursor)) c :=
      .same (ha.upheld.report ⟨hl, rfl, rfl⟩)
    refine hreport.bind (Run.Paired.bind (fun c => h _ c (.inl (ha.onLeave _))) ?_)
    exact Run.Paired.bind (fun c => .same (ha.upheld.pop c _)) (ha.returned h)

theorem Alongside.perform {a : Action ρ} (hG : G a) :
    Run.Paired P B d ((m.under o).perform self' a) (m.perform self a) := by
  intro c
  cases a with
  | skip => exact .same (ha.upheld.refl c)
  | forward => exact .same (ha.upheld.forward c)
  | enter s => exact ha.enter h s c
  | leave => exact ha.leave h c
  | reenter => exact .get ((ha.leave h c).bind (ha.enter h _))
  | handBack =>
    exact Run.PairedAt.bind (.same (ha.upheld.handedBack c _)) ((ha.leave h).bind
      fun c => .same (ha.upheld.handedBack c _))
  | reprocess => exact ha.dispatch h c
  | resume =>
    refine .get ?_
    split
    · exact Run.PairedAt.bind (.same (ha.upheld.handedBack c _)) (ha.dispatch h)
    · exact .same (ha.upheld.refl c)
  | openNested =>
    exact Run.PairedAt.bind (.same (ha.upheld.top c _ (fun _ => rfl) fun _ => rfl)) ha.forward
  | closeNested =>
    refine .get ?_
    split
    · exact Run.PairedAt.bind (.same (ha.upheld.top c _ (fun _ => rfl) fun _ => rfl)) ha.forward
    · exact (ha.forward c).bind (ha.leave h)
  | escape s =>
    have hrule : (m.under o).options.escapeRule = m.options.escapeRule := ha.escape hG
    simp only [Machine.perform, hrule]
    split
    · exact ha.enter h s c
    · exact ha.forward c
  | forwardOnce =>
    refine .get ?_
    split
    · exact ha.forward c
    · rw [ha.fail]
      exact .same (ha.upheld.fail _ c)
  | requireContent f =>
    refine .get ?_
    split
    · rw [ha.fail]
      exact .same (ha.upheld.fail _ c)
    · exact .same (ha.upheld.refl c)
  | fail f =>
    simp only [Machine.perform, ha.fail]
    exact .same (ha.upheld.fail _ c)
  | sequence as =>
    exact ha.forM (fun a hmem c => h a c (.inl (ha.sequence hG a hmem))) c

end Steps

section Lines

variable (ha : m.Alongside o P B G)
include ha

/-- Actions of every depth are run alike where they are apt. -/
theorem Alongside.handle : ∀ (b : Nat) (a : Action ρ) (c : Config ρ σ), m.Apt B G c a →
    Run.PairedAt P B d ((m.under o).handle (b + d) a) (m.handle b a) c
  | 0, a, c, _ => by
    refine fun _ => ⟨⟨id, id⟩, ?_⟩
    rcases Nat.eq_zero_or_pos d with rfl | hd
    · exact .inr rfl
    · exact .inl (.inr ⟨hd, c, rfl⟩)
  | b + 1, a, c, hapt => by
    rw [Nat.add_right_comm]
    rcases hapt with hG | hB
    · exact ha.perform (Alongside.handle b) hG c
    · exact fun _ => ⟨ha.upheld.handle (b + 1) a c, .inl (.inl (hB _))⟩

theorem Alongside.feed (b : Nat) : ∀ (n : Nat) {cs : List Char}, (∀ ch ∈ cs, P ch) →
    Run.Paired P B d ((m.under o).feed (b + d) n cs) (m.feed b n cs)
  | _, [], _ => fun c => .same (ha.upheld.refl c)
  | n, ch :: cs, hcs => by
    let move : Run ρ σ Unit := modify fun c => { c with offset := n, cursor := some ch }
    have hmove : Run.Paired P B d move move := by
      refine fun c => .same ⟨fun _ ch' hch' => ?_, id⟩
      cases hch'
      exact hcs ch List.mem_cons_self
    have hadvance : Run.Paired P B d ((m.under o).advance (b + d) n ch) (m.advance b n ch) :=
      hmove.bind (ha.dispatch (ha.handle b))
    exact hadvance.bind (Alongside.feed b _ fun ch' h => hcs ch' (List.mem_cons_of_mem ch h))

theorem Alongside.closeAll (b : Nat) : ∀ rounds : Nat,
    Run.Paired P B d ((m.under o).closeAll (b + d) (rounds + d)) (m.closeAll b rounds)
  | 0 => by
    refine fun c _ => ?_
    rcases hst : c.stack with _ | ⟨top, rest⟩
    · have hquiet : m.closeAll b 0 c = .ok () c ∧ (m.under o).closeAll (b + d) d c = .ok () c := by
        cases d <;> simp [Machine.closeAll, Run.bind_apply, Run.get_apply, Run.pure_apply, hst]
      rw [Nat.zero_add, hquiet.1, hquiet.2]
      exact ⟨.of_ok rfl rfl, .inr rfl⟩
    · have hthrow : ∀ m' : Machine ρ σ, m'.closeAll b 0 c = .error .exhausted c := by
        intro m'
        simp [Machine.closeAll, Run.bind_apply, Run.get_apply, Run.throw_apply, hst]
      rw [hthrow]
      refine ⟨⟨id, id⟩, ?_⟩
      rcases Nat.eq_zero_or_pos d with rfl | hd
      · exact .inr (hthrow _)
      · exact .inl (.inr ⟨hd, c, rfl⟩)
  | rounds + 1 => by
    rw [Nat.add_right_comm]
    refine fun c => .get ?_
    split
    · exact .same (ha.upheld.refl c)
    · refine (ha.handle b _ c (.inl (ha.onEnd _))).bind fun c => .get ?_
      split
      · exact (ha.leave (ha.handle b) c).bind (Alongside.closeAll b rounds)
      · exact Alongside.closeAll b rounds c

theorem Alongside.read (b n : Nat) {cs : List Char} (hcs : ∀ ch ∈ cs, P ch) :
    Run.Paired P B d ((m.under o).read (b + d) n cs) (m.read b n cs) := by
  refine (ha.feed b n hcs).bind (Run.Paired.bind (fun c => .same ⟨fun _ ch hch => ?_, id⟩) ?_)
  · cases hch
  · exact ha.closeAll b b

/-- A line is reported on alike, unless the consumer comes to `B`. -/
theorem Alongside.run (hfatal : o.fatalErrors = m.options.fatalErrors) {line : String}
    (hline : ∀ ch ∈ line.toList, P ch) (b : Nat) (s : σ) :
    B (m.run b line s).consumer ∨ (m.under o).run b line s = m.run b line s := by
  obtain ⟨htake, hdrop⟩ := Text.span_congr fun ch hch => ha.isBlank (hline ch hch)
  have hconclude : (m.under o).conclude line = m.conclude line := by
    funext r
    rcases r with ⟨_, c⟩ | ⟨_ | _ | _, c⟩ <;> simp only [conclude, under, hfatal]
  rcases hcs : line.toList.dropWhile m.options.isBlank with _ | ⟨ch, cs⟩
  · rw [m.run_of_blank hcs, (m.under o).run_of_blank (hdrop.trans hcs)]
    exact .inr rfl
  · have hmem : ∀ ch' ∈ ch :: cs, P ch' := fun ch' hch' =>
      hline ch' ((List.dropWhile_sublist _).subset (hcs ▸ hch'))
    rw [m.run_of_content hcs, (m.under o).run_of_content (hdrop.trans hcs), hconclude,
      show line.toList.takeWhile (m.under o).options.isBlank = _ from htake, m.conclude_consumer]
    have hstart : Run.InSight P ({ consumer := s } : Config ρ σ) := fun ch hch => by cases hch
    rcases (ha.read (d := 0) b _ hmem _ hstart).2 with (hB | ⟨hd, -⟩) | heq
    · exact .inl hB
    · omega
    · exact .inr (congrArg _ heq)

end Lines

variable (m)

/-- Options that agree on the characters of `P` and on the rules make no difference to a machine. -/
theorem alongside_of_agree {o : Options} {P : Char → Prop}
    (hblank : ∀ ch, P ch → o.isBlank ch = m.options.isBlank ch)
    (hlenient : o.lenientBrackets = m.options.lenientBrackets)
    (hescape : o.escapeRule = m.options.escapeRule) :
    m.Alongside o P (fun _ => False) (fun _ => True) where
  isBlank h := hblank _ h
  lenientBrackets := hlenient
  sink _ _ h := h
  escape _ := hescape
  sequence _ _ _ := trivial
  onEnter _ := trivial
  onLeave _ := trivial
  onReturn _ := trivial
  onEnd _ := trivial
  actionFor _ _ := .inl trivial

/-- The machine goes along with itself. -/
theorem alongside_self :
    m.Alongside m.options (fun _ => True) (fun _ => False) (fun _ => True) :=
  m.alongside_of_agree (fun _ _ => rfl) rfl rfl

/-- A run that is paired with one that has more to spend and knows nothing else goes the same way
unless it is exhausted. -/
theorem exhausted_or_eq {d : Nat} {x y : Run ρ σ Unit}
    (h : Run.Paired (fun _ => True) (fun _ => False) d y x) (c : Config ρ σ) :
    (∃ c', x c = .error .exhausted c') ∨ y c = x c := by
  rcases (h c fun _ _ => trivial).2 with (hB | ⟨-, hx⟩) | heq
  · exact hB.elim
  · exact .inl hx
  · exact .inr heq

theorem feed_prolongs (b d n : Nat) (cs : List Char) (c : Config ρ σ) :
    (∃ c', m.feed b n cs c = .error .exhausted c') ∨ m.feed (b + d) n cs c = m.feed b n cs c :=
  exhausted_or_eq (m.alongside_self.feed b n fun _ _ => trivial) c

theorem read_prolongs (b d n : Nat) (cs : List Char) (c : Config ρ σ) :
    (∃ c', m.read b n cs c = .error .exhausted c') ∨ m.read (b + d) n cs c = m.read b n cs c :=
  exhausted_or_eq (m.alongside_self.read b n fun _ _ => trivial) c

/-- A run that is not exhausted goes the same way within every larger bound. -/
theorem run_mono {b b' : Nat} (h : b ≤ b') {line : String} {s : σ}
    (hr : (m.run b line s).outcome ≠ .error .exhausted) : m.run b' line s = m.run b line s := by
  obtain ⟨d, rfl⟩ := Nat.exists_eq_add_of_le h
  rcases hcs : line.toList.dropWhile m.options.isBlank with _ | ⟨ch, cs⟩
  · rw [m.run_of_blank hcs, m.run_of_blank hcs]
  · rw [m.run_of_content hcs] at hr ⊢
    rw [m.run_of_content hcs]
    rcases m.read_prolongs b d (Text.byteSize (line.toList.takeWhile m.options.isBlank))
      (ch :: cs) { consumer := s } with ⟨c, hx⟩ | hx
    · rw [hx, conclude_of_exhausted] at hr
      exact absurd rfl hr
    · rw [hx]

/-- The machine reads the line to the report `r`, within some bound. -/
def Returns (line : String) (s : σ) (r : Report σ) : Prop :=
  ∃ bound, m.run bound line s = r ∧ r.outcome ≠ .error .exhausted

theorem Returns.unique {m : Machine ρ σ} {line : String} {s : σ} {r r' : Report σ}
    (h : m.Returns line s r) (h' : m.Returns line s r') : r = r' := by
  obtain ⟨b, rfl, hb⟩ := h
  obtain ⟨b', rfl, hb'⟩ := h'
  rcases Nat.le_total b b' with hle | hle
  · exact (m.run_mono hle hb).symm
  · exact m.run_mono hle hb'

end Machine

end RequestLine
