import Mathlib
import RequestLine.Machine.Run

/-!
# What every step of a run keeps

What an action does is a handful of things: it reports events, it may fail, and it changes the
configuration in a few ways. `Machine.Upheld` collects what a relation between the beginning of a
step and its end must satisfy to hold across all of them, and `Machine.Upheld.handle` carries it
through actions of every depth. `Machine.Kept` is the case of a relation between the configurations
before and after that says nothing about the events.
-/

namespace RequestLine

variable {ρ σ α β : Type}

namespace Config

@[simp] theorem mapTop_cursor (f : Frame ρ → Frame ρ) (c : Config ρ σ) :
    (c.mapTop f).cursor = c.cursor := by
  unfold mapTop
  split <;> rfl

@[simp] theorem mapTop_offset (f : Frame ρ → Frame ρ) (c : Config ρ σ) :
    (c.mapTop f).offset = c.offset := by
  unfold mapTop
  split <;> rfl

@[simp] theorem mapTop_handedBack (f : Frame ρ → Frame ρ) (c : Config ρ σ) :
    (c.mapTop f).handedBack = c.handedBack := by
  unfold mapTop
  split <;> rfl

@[simp] theorem mapTop_consumer (f : Frame ρ → Frame ρ) (c : Config ρ σ) :
    (c.mapTop f).consumer = c.consumer := by
  unfold mapTop
  split <;> rfl

end Config

namespace Run

theorem bind_apply (x : Run ρ σ α) (f : α → Run ρ σ β) (c : Config ρ σ) :
    (x >>= f) c = match x c with
      | .ok a c' => f a c'
      | .error e c' => .error e c' := by
  simp only [bind, EStateM.bind]
  cases x c <;> rfl

theorem pure_apply (a : α) (c : Config ρ σ) : (pure a : Run ρ σ α) c = .ok a c := rfl

theorem get_apply (c : Config ρ σ) : (get : Run ρ σ (Config ρ σ)) c = .ok c c := rfl

theorem set_apply (c c' : Config ρ σ) : (set c' : Run ρ σ PUnit) c = .ok () c' := rfl

theorem modify_apply (f : Config ρ σ → Config ρ σ) (c : Config ρ σ) :
    (modify f : Run ρ σ PUnit) c = .ok () (f c) := rfl

theorem throw_apply (e : Stop) (c : Config ρ σ) : (throw e : Run ρ σ α) c = .error e c := rfl

def final : EStateM.Result Stop (Config ρ σ) α → Config ρ σ
  | .ok _ c => c
  | .error _ c => c

/-- The relation `R` holds between `c` and the configuration that the run from `c` ends with. -/
def KeepsAt (R : Config ρ σ → Config ρ σ → Prop) (x : Run ρ σ α) (c : Config ρ σ) : Prop :=
  R c (final (x c))

/-- The relation `R` holds between the configurations before and after the run. -/
def Keeps (R : Config ρ σ → Config ρ σ → Prop) (x : Run ρ σ α) : Prop :=
  ∀ c, x.KeepsAt R c

/-- The relation `Q` holds between `c` and the end of the run from `c`. -/
def MeetsAt (Q : Config ρ σ → EStateM.Result Stop (Config ρ σ) Unit → Prop) (x : Run ρ σ Unit)
    (c : Config ρ σ) : Prop :=
  Q c (x c)

def Meets (Q : Config ρ σ → EStateM.Result Stop (Config ρ σ) Unit → Prop) (x : Run ρ σ Unit) :
    Prop :=
  ∀ c, x.MeetsAt Q c

end Run

namespace Machine

variable (m : Machine ρ σ)

theorem run_of_blank {line : String} (h : line.toList.dropWhile m.options.isBlank = [])
    (b : Nat) (s : σ) :
    m.run b line s = { outcome := .ok (), consumer := s, notes := #[] } := by
  simp [run, h]

theorem run_of_content {line : String} {ch : Char} {cs : List Char}
    (h : line.toList.dropWhile m.options.isBlank = ch :: cs) (b : Nat) (s : σ) :
    m.run b line s = m.conclude line
      (m.read b (Text.byteSize (line.toList.takeWhile m.options.isBlank)) (ch :: cs)
        { consumer := s }) := by
  simp only [run, h]

theorem conclude_of_exhausted (line : String) (c : Config ρ σ) :
    (m.conclude line (.error .exhausted c)).outcome = .error .exhausted := rfl

theorem conclude_consumer (line : String) (r : EStateM.Result Stop (Config ρ σ) Unit) :
    (m.conclude line r).consumer = (Run.final r).consumer := by
  rcases r with ⟨_, c⟩ | ⟨_ | _ | _, c⟩ <;> rfl

/-- The relation `R` holds across every change that the machine makes to its configuration on its
own: the cursor alone is moved from outside. -/
structure Kept (R : Config ρ σ → Config ρ σ → Prop) : Prop where
  refl : ∀ c, R c c
  trans : ∀ {c c' c''}, R c c' → R c' c'' → R c c''
  consumer : ∀ c s, R c { c with consumer := s }
  handedBack : ∀ c b, R c { c with handedBack := b }
  top : ∀ c (f : Frame ρ → Frame ρ), (∀ t, (f t).state = t.state) →
    (∀ t, (f t).openedAt = t.openedAt) → R c (c.mapTop f)
  push : ∀ c s, R c ((c.note (.entered (m.state s).label c.offset)).push s)
  pop : ∀ c l, R c (c.pop.note (.left l c.offset))

/-- The event `e` is about the configuration `c`: it stands at the cursor, and what a state passes
on or is closed by is the character there. -/
def Concerns (m : Machine ρ σ) (c : Config ρ σ) : Event → Prop
  | .entered _ n => n = c.offset
  | .character l ch n => l = m.label c ∧ some ch = c.cursor ∧ n = c.offset
  | .leaving l n closing => l = m.label c ∧ closing = c.cursor ∧ n = c.offset

/-- A frame may count characters and nested openers without a change of what the machine is at. -/
theorem concerns_character_mapTop {f : Frame ρ → Frame ρ} (hf : ∀ t, (f t).state = t.state)
    {c : Config ρ σ} {ch : Char} (hc : c.cursor = some ch) :
    m.Concerns (c.mapTop f) (.character (m.label c) ch c.offset) := by
  obtain ⟨_ | ⟨top, rest⟩, _, _, _, _, _⟩ := c
  · exact ⟨rfl, hc.symm, rfl⟩
  · refine ⟨?_, hc.symm, rfl⟩
    simp only [label, current, Config.mapTop, hf]

/-- The relation `Q` between the beginning and the end of a step holds across everything that the
machine does on its own: the cursor alone is moved from outside. -/
structure Upheld (Q : Config ρ σ → EStateM.Result Stop (Config ρ σ) Unit → Prop) : Prop where
  refl : ∀ c, Q c (.ok () c)
  trans : ∀ {c c' r}, Q c (.ok () c') → Q c' r → Q c r
  exhausted : ∀ c, Q c (.error .exhausted c)
  report : ∀ {c e}, m.Concerns c e → Q c (m.report e c)
  fail : ∀ f c, Q c (m.fail f c)
  handedBack : ∀ c b, Q c (.ok () { c with handedBack := b })
  top : ∀ c (f : Frame ρ → Frame ρ), (∀ t, (f t).state = t.state) →
    (∀ t, (f t).openedAt = t.openedAt) → Q c (.ok () (c.mapTop f))
  push : ∀ c s, Q c (.ok () ((c.note (.entered (m.state s).label c.offset)).push s))
  pop : ∀ c l, Q c (.ok () (c.pop.note (.left l c.offset)))

section Upholding

variable {m} {Q : Config ρ σ → EStateM.Result Stop (Config ρ σ) Unit → Prop}
  {self : Action ρ → Run ρ σ Unit}

theorem Upheld.get (_ : m.Upheld Q) {f : Config ρ σ → Run ρ σ Unit}
    (hf : ∀ c, (f c).MeetsAt Q c) : (MonadState.get >>= f).Meets Q :=
  hf

theorem Upheld.set (hQ : m.Upheld Q) {x : Run ρ σ Unit} {c c' : Config ρ σ}
    (h : Q c (.ok () c')) (hx : x.MeetsAt Q c') :
    (MonadStateOf.set c' >>= fun _ => x).MeetsAt Q c :=
  hQ.trans h hx

theorem Upheld.modify {f : Config ρ σ → Config ρ σ} (_ : m.Upheld Q)
    (hf : ∀ c, Q c (.ok () (f c))) : (modifyGet fun c => (⟨⟩, f c) : Run ρ σ PUnit).Meets Q :=
  hf

theorem Upheld.bindAt (hQ : m.Upheld Q) {x y : Run ρ σ Unit} {c : Config ρ σ}
    (hx : x.MeetsAt Q c) (hy : y.Meets Q) : (x >>= fun _ => y).MeetsAt Q c := by
  unfold Run.MeetsAt at hx ⊢
  rw [Run.bind_apply]
  rcases hc : x c with ⟨_, c'⟩ | ⟨e, c'⟩ <;> rw [hc] at hx
  · exact hQ.trans hx (hy c')
  · exact hx

theorem Upheld.bind (hQ : m.Upheld Q) {x y : Run ρ σ Unit} (hx : x.Meets Q) (hy : y.Meets Q) :
    (x >>= fun _ => y).Meets Q :=
  fun c => hQ.bindAt (hx c) hy

theorem Upheld.forM (hQ : m.Upheld Q) {α : Type} {f : α → Run ρ σ Unit}
    (hf : ∀ a, (f a).Meets Q) : ∀ as : List α, (as.forM f).Meets Q
  | [] => hQ.refl
  | a :: as => hQ.bind (hf a) (hQ.forM hf as)

theorem Upheld.forward (hQ : m.Upheld Q) : m.forward.Meets Q := by
  refine hQ.get fun c => ?_
  split
  · exact hQ.refl c
  · rename_i ch hc
    have hf : ∀ t : Frame ρ, ({ t with forwarded := t.forwarded + 1 } : Frame ρ).state = t.state :=
      fun _ => rfl
    exact hQ.set (hQ.top c _ hf fun _ => rfl) (hQ.report (m.concerns_character_mapTop hf hc))

theorem Upheld.dispatch (hQ : m.Upheld Q) (h : ∀ a, (self a).Meets Q) :
    (m.dispatch self).Meets Q := by
  refine hQ.get fun c => ?_
  split
  · exact hQ.refl c
  · split
    · exact hQ.refl c
    · exact h _ c

theorem Upheld.enter (hQ : m.Upheld Q) (h : ∀ a, (self a).Meets Q) (s : ρ) :
    (m.enter self s).Meets Q := by
  refine hQ.get fun c => hQ.bindAt (hQ.report ?_) (hQ.bind (hQ.modify fun c => hQ.push c s) (h _))
  exact rfl

theorem Upheld.returned (hQ : m.Upheld Q) (h : ∀ a, (self a).Meets Q) :
    (m.returned self).Meets Q := by
  refine hQ.get fun c => ?_
  split
  · exact hQ.refl c
  · exact h _ c

theorem Upheld.leave (hQ : m.Upheld Q) (h : ∀ a, (self a).Meets Q) : (m.leave self).Meets Q := by
  refine hQ.get fun c => ?_
  split
  · exact hQ.fail _ c
  · rename_i top rest hst
    have hl : (m.state top.state).label = m.label c := by simp only [label, current, hst]
    refine hQ.bindAt (hQ.report ⟨hl, rfl, rfl⟩) (hQ.bind (h _) ?_)
    exact hQ.bind (hQ.modify fun c => hQ.pop c _) (hQ.returned h)

theorem Upheld.perform (hQ : m.Upheld Q) (h : ∀ a, (self a).Meets Q) :
    ∀ a, (m.perform self a).Meets Q
  | .skip => hQ.refl
  | .forward => hQ.forward
  | .enter s => hQ.enter h s
  | .leave => hQ.leave h
  | .reenter => hQ.get fun c => hQ.bind (hQ.leave h) (hQ.enter h _) c
  | .handBack => hQ.bind (hQ.modify fun c => hQ.handedBack c _)
      (hQ.bind (hQ.leave h) (hQ.modify fun c => hQ.handedBack c _))
  | .reprocess => hQ.dispatch h
  | .resume => by
    refine hQ.get fun c => ?_
    split
    · exact hQ.set (hQ.handedBack c _) (hQ.dispatch h _)
    · exact hQ.refl c
  | .openNested => hQ.bind (hQ.modify fun c => hQ.top c _ (fun _ => rfl) fun _ => rfl) hQ.forward
  | .closeNested => by
    refine hQ.get fun c => ?_
    split
    · exact hQ.set (hQ.top c _ (fun _ => rfl) fun _ => rfl) (hQ.forward _)
    · exact hQ.bind hQ.forward (hQ.leave h) c
  | .escape s => by
    simp only [Machine.perform]
    split
    · exact hQ.enter h s
    · exact hQ.forward
  | .forwardOnce => by
    refine hQ.get fun c => ?_
    split
    · exact hQ.forward c
    · exact hQ.fail _ c
  | .requireContent f => by
    refine hQ.get fun c => ?_
    split
    · exact hQ.fail _ c
    · exact hQ.refl c
  | .fail f => hQ.fail f
  | .sequence as => hQ.forM h as

/-- What holds across everything that the machine does holds across an action of any depth. -/
theorem Upheld.handle (hQ : m.Upheld Q) : ∀ (b : Nat) (a : Action ρ), (m.handle b a).Meets Q
  | 0, _ => hQ.exhausted
  | b + 1, a => hQ.perform (hQ.handle b) a

theorem Upheld.closeAll (hQ : m.Upheld Q) (b : Nat) :
    ∀ rounds : Nat, (m.closeAll b rounds).Meets Q
  | 0 => by
    refine hQ.get fun c => ?_
    split
    · exact hQ.refl c
    · exact hQ.exhausted c
  | rounds + 1 => by
    refine hQ.get fun c => ?_
    split
    · exact hQ.refl c
    · refine hQ.bind (hQ.handle b _) (hQ.get fun c => ?_) c
      split
      · exact hQ.bind (hQ.leave (hQ.handle b)) (hQ.closeAll b rounds) c
      · exact hQ.closeAll b rounds c

end Upholding

section Keeping

variable {m} {R : Config ρ σ → Config ρ σ → Prop}

theorem Kept.upheld (hR : m.Kept R) : m.Upheld fun c r => R c (Run.final r) where
  refl := hR.refl
  trans := hR.trans
  exhausted := hR.refl
  report {c e} _ := by
    unfold Machine.report
    split
    · exact hR.consumer c _
    · exact hR.consumer c _
  fail f c := by
    unfold Machine.fail
    split
    · exact hR.refl c
    · exact hR.refl c
  handedBack := hR.handedBack
  top := hR.top
  push := hR.push
  pop := hR.pop

theorem Kept.dispatch (hR : m.Kept R) (b : Nat) : (m.dispatch (m.handle b)).Keeps R :=
  hR.upheld.dispatch (hR.upheld.handle b)

theorem Kept.closeAll (hR : m.Kept R) (b rounds : Nat) : (m.closeAll b rounds).Keeps R :=
  hR.upheld.closeAll b rounds

end Keeping

end Machine

end RequestLine
