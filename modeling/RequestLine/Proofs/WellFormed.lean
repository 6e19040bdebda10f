import RequestLine.Proofs.Acceptance

/-!
# Well-formed requests

Not every request can be read from a line: a step or a property of which nothing is written is none,
and operations and targets are trimmed. `Request.WellFormed` says which requests are left, and
`Request.wellFormed_of_parse` that no line gives any other.

The collector sees to the steps and the properties by itself, whatever events it takes. The
operation and the target are well formed because of the places at which their characters are passed
on, so the invariant `Sound` ties the collector to the place: while an operation or a target is
read, its field is a draft with a first character that is not blank, and at all other places the
fields are empty. Events that leave the two alone are `calm`.
-/

namespace RequestLine

namespace Text

/-- No blank of a terminal line stands at the ends of the text, which may be empty. -/
def Edged (cs : List Char) : Prop :=
  (∀ c ∈ cs.head?, isPlainBlank c = false) ∧ ∀ c ∈ cs.getLast?, isPlainBlank c = false

instance (cs : List Char) : Decidable (Edged cs) :=
  decidable_of_iff
    (cs.head?.all (!isPlainBlank ·) = true ∧ cs.getLast?.all (!isPlainBlank ·) = true)
    (by simp [Edged, Option.all_eq_true])

def Clean (s : String) : Prop :=
  s ≠ "" ∧ Edged s.toList

instance (s : String) : Decidable (Clean s) :=
  inferInstanceAs (Decidable (_ ∧ _))

def IsOperation (s : String) : Prop :=
  Clean s ∧ ∀ c ∈ s.toList, c ∉ ['(', '>', ':', '/', '=', ')']

instance (s : String) : Decidable (IsOperation s) :=
  decidable_of_iff
    (Clean s ∧ s.toList.all (· ∉ ['(', '>', ':', '/', '=', ')']) = true)
    (by simp [IsOperation])

end Text

/-- Something of the step is written. -/
def Step.WellFormed : Step → Prop
  | node s => s.nodeType ≠ "" ∨ s.name ≠ none
  | parent => True
  | current => True
  | nodeType => True

instance : (s : Step) → Decidable s.WellFormed
  | .node s => inferInstanceAs (Decidable (s.nodeType ≠ "" ∨ s.name ≠ none))
  | .parent => .isTrue trivial
  | .current => .isTrue trivial
  | .nodeType => .isTrue trivial

def Property.WellFormed (p : Property) : Prop :=
  p.name ≠ "" ∨ p.value ≠ none

instance (p : Property) : Decidable p.WellFormed :=
  inferInstanceAs (Decidable (_ ∨ _))

/-- The requests that lines are written for. -/
def Request.WellFormed (r : Request) : Prop :=
  (∀ s ∈ r.address, s.WellFormed) ∧ (∀ s ∈ r.operation, Text.IsOperation s)
    ∧ (∀ ps ∈ r.properties, ∀ p ∈ ps, p.WellFormed)
    ∧ ∀ d ∈ r.redirect, Text.Clean d.target

instance (r : Request) : Decidable r.WellFormed :=
  inferInstanceAs (Decidable (_ ∧ _ ∧ _ ∧ _))

namespace Text

theorem trimEnd_eq_rdropWhile (p : Char → Bool) (cs : List Char) :
    trimEnd p cs = cs.rdropWhile p := rfl

theorem trimStart_of_head {p : Char → Bool} {c : Char} {cs : List Char} (h : p c = false) :
    trimStart p (c :: cs) = c :: cs := by
  simp [trimStart, h]

/-- A text that begins with something else than a blank is clean when its end is trimmed. -/
theorem clean_trim {p : Char → Bool} (hp : ∀ c, isPlainBlank c = true → p c = true) {c : Char}
    (cs : List Char) (hc : p c = false) :
    Clean (String.ofList (trim p (c :: cs))) ∧ ∀ x ∈ trim p (c :: cs), x ∈ c :: cs := by
  have hplain : ∀ x, p x = false → isPlainBlank x = false := by
    intro x hx
    rcases hb : isPlainBlank x with _ | _
    · rfl
    · rw [hp x hb] at hx
      cases hx
  rw [trim, trimStart_of_head hc, trimEnd_eq_rdropWhile]
  have hprefix := List.rdropWhile_prefix p (l := c :: cs)
  have hne : (c :: cs).rdropWhile p ≠ [] := by
    intro h
    have hall := List.rdropWhile_eq_nil_iff.mp h c List.mem_cons_self
    rw [hc] at hall
    cases hall
  have hlast := List.rdropWhile_last_not p (c :: cs) hne
  refine ⟨⟨?_, ?_, ?_⟩, fun x hx => hprefix.subset hx⟩
  · intro h
    exact hne (by simpa using congrArg String.toList h)
  · rw [String.toList_ofList]
    intro x hx
    obtain ⟨ds, hds⟩ := hprefix
    rcases hd : (c :: cs).rdropWhile p with _ | ⟨y, ys⟩
    · exact absurd hd hne
    · rw [hd] at hx hds
      obtain ⟨rfl, -⟩ := List.cons.inj hds
      obtain rfl := Option.some.inj hx
      exact hplain y hc
  · rw [String.toList_ofList]
    intro x hx
    obtain ⟨h, rfl⟩ := List.mem_getLast?_eq_getLast hx
    exact hplain _ (by simpa using hlast)

end Text

theorem Options.isBlank_of_isPlainBlank (o : Options) {c : Char} (h : Text.isPlainBlank c = true) :
    o.isBlank c = true := by
  unfold Options.isBlank
  split
  · exact Text.isUnicodeBlank_of_isPlainBlank h
  · exact h

/-- A field to which `n` characters were given, none of them through a literal, all of them with the
property `P` and the first of them not blank. -/
structure Drafted (P : Char → Prop) (o : Options) (n : Nat) (f : Field) : Prop where
  kept : f.kept = none
  chars : ∀ c ∈ f.text.toList, P c
  empty : n = 0 → f.text = ""
  inked : n ≠ 0 → ∃ c cs, f.text.toList = c :: cs ∧ o.isBlank c = false

namespace Drafted

variable {P : Char → Prop} {o : Options} {n : Nat} {f : Field} {c : Char}

theorem start : Drafted P o 0 {} :=
  ⟨rfl, by simp, fun _ => rfl, fun h => absurd rfl h⟩

theorem push (h : Drafted P o n f) (hP : P c) (hc : n = 0 → o.isBlank c = false) :
    Drafted P o (n + 1) (f.push c false) where
  kept := h.kept
  chars := by
    intro x hx
    simp only [Field.push, String.toList_push, List.mem_append, List.mem_singleton] at hx
    rcases hx with hx | rfl
    · exact h.chars x hx
    · exact hP
  empty := fun hn => absurd hn (Nat.succ_ne_zero n)
  inked := by
    intro _
    simp only [Field.push, String.toList_push]
    by_cases hn : n = 0
    · exact ⟨c, [], by simp [h.empty hn], hc hn⟩
    · obtain ⟨d, ds, hds, hd⟩ := h.inked hn
      exact ⟨d, ds ++ [c], by rw [hds]; rfl, hd⟩

theorem ne_nil (h : Drafted P o n f) (hn : n ≠ 0) : f.text ≠ "" := by
  obtain ⟨d, ds, hds, -⟩ := h.inked hn
  intro hf
  rw [hf] at hds
  cases hds

/-- A draft is trimmed to a clean text. -/
theorem finish (h : Drafted P o n f) (hn : n ≠ 0) :
    Text.Clean (f.finish o.isBlank) ∧ ∀ x ∈ (f.finish o.isBlank).toList, P x := by
  obtain ⟨d, ds, hds, hd⟩ := h.inked hn
  have hfinish : f.finish o.isBlank = String.ofList (Text.trim o.isBlank (d :: ds)) := by
    simp only [Field.finish, Field.trimmed?, h.kept, hds, Option.getD_some]
  obtain ⟨hclean, hsub⟩ := Text.clean_trim (fun x hx => o.isBlank_of_isPlainBlank hx) ds hd
  rw [hfinish, String.toList_ofList]
  exact ⟨hclean, fun x hx => h.chars x (hds ▸ hsub x hx)⟩

end Drafted

theorem Collector.stepOf_wellFormed {literal : Bool} {t : String} {name : Option String} {s : Step}
    (h : stepOf literal t name = some s) : s.WellFormed := by
  unfold stepOf at h
  split at h
  · obtain rfl := Option.some.inj h
    exact .inr (by simp)
  · split at h
    · cases h
    · rename_i ht
      split at h
      · obtain rfl := Option.some.inj h
        exact .inl ht
      · obtain rfl := Option.some.inj h
        unfold Step.ofWord?
        repeat' split
        all_goals first | trivial | exact .inl ht

theorem Collector.pendingProperty_wellFormed {c : Collector} {p : Property}
    (h : c.pendingProperty = some p) : p.WellFormed := by
  rw [Collector.pendingProperty, Collector.writtenProperty] at h
  split at h
  · cases h
  · rename_i hne
    obtain rfl := Option.some.inj h
    simp only [Bool.and_eq_true, decide_eq_true_eq, Option.isNone_iff_eq_none, not_and] at hne
    by_cases hn : c.textOf c.property.name = ""
    · exact .inr (hne hn)
    · exact .inl hn

/-- The open states after the event, if it leaves the operation and the target alone. -/
def Event.calm? (st : List Label) : Event → Option (List Label)
  | .entered l _ => some (l :: st)
  | .character l _ _ =>
    if l = .initial then some st
    else
      match textOwner st with
      | some (.operationName, _) => none
      | some (.outputTarget, _) => none
      | _ => some st
  | .leaving l _ _ => if l = .operationName ∨ l = .outputRedirect then none else some st.tail

/-- What calm events make of a collector. -/
structure Calm (c d : Collector) : Prop where
  options : d.options = c.options
  operation : d.operation = c.operation
  target : d.target = c.target
  request : c.request.WellFormed → d.request.WellFormed

theorem Calm.trans {c d e : Collector} (h : Calm c d) (h' : Calm d e) : Calm c e :=
  ⟨h'.options.trans h.options, h'.operation.trans h.operation, h'.target.trans h.target,
    fun hc => h'.request (h.request hc)⟩

theorem Collector.enter_calm (c : Collector) (l : Label) (n : Nat) :
    Calm c (c.enter l n) ∧ (c.enter l n).stack = l :: c.stack := by
  cases l <;> refine ⟨⟨rfl, rfl, rfl, fun h => ?_⟩, rfl⟩
  case propertyList =>
    refine ⟨h.1, h.2.1, ?_, h.2.2.2⟩
    rintro ps ⟨⟩
    exact fun p hp => absurd hp List.not_mem_nil
  all_goals exact h

theorem Collector.give_calm (c : Collector) {owner : Label} (ch : Char) (keep : Bool)
    (h₁ : owner ≠ .operationName) (h₂ : owner ≠ .outputTarget) :
    Calm c (c.give owner ch keep) ∧ (c.give owner ch keep).stack = c.stack := by
  cases owner
  case operationName => exact absurd rfl h₁
  case outputTarget => exact absurd rfl h₂
  all_goals exact ⟨⟨rfl, rfl, rfl, id⟩, rfl⟩

theorem Collector.seen_calm (c : Collector) (ch : Char) :
    Calm c (c.seen ch) ∧ (c.seen ch).stack = c.stack := by
  unfold Collector.seen
  split
  · exact ⟨⟨rfl, rfl, rfl, id⟩, rfl⟩
  · exact ⟨⟨rfl, rfl, rfl, id⟩, rfl⟩

theorem Collector.take_calm {c : Collector} {l : Label} {ch : Char} {n : Nat} {st : List Label}
    (h : Event.calm? c.stack (.character l ch n) = some st) :
    Calm c (c.take l ch) ∧ (c.take l ch).stack = st := by
  obtain ⟨hseen, hstack⟩ := c.seen_calm ch
  rw [Collector.take_eq, hstack]
  simp only [Event.calm?] at h
  split at h
  · rename_i hl
    obtain rfl := Option.some.inj h
    rw [if_pos hl]
    exact ⟨hseen.trans ⟨rfl, rfl, rfl, id⟩, hstack⟩
  · rename_i hl
    rw [if_neg hl]
    split
    · rename_i howner
      rw [howner] at h
      obtain rfl := Option.some.inj h
      exact ⟨hseen, hstack⟩
    · rename_i owner keep howner
      rw [howner] at h
      have hne : owner ≠ .operationName ∧ owner ≠ .outputTarget ∧ c.stack = st := by
        cases owner <;> simp at h ⊢ <;> exact h
      obtain ⟨hcalm, hgive⟩ := (c.seen ch).give_calm ch keep hne.1 hne.2.1
      exact ⟨hseen.trans hcalm, by rw [hgive, hstack, hne.2.2]⟩

theorem Collector.finishSegment_calm (c : Collector) : Calm c c.finishSegment := by
  rw [Collector.finishSegment_eq]
  refine ⟨rfl, rfl, rfl, fun h => ⟨?_, h.2⟩⟩
  intro s hs
  rcases List.mem_append.mp hs with hs | hs
  · exact h.1 s hs
  · exact Collector.stepOf_wellFormed (Option.mem_toList.mp hs)

theorem Collector.finishProperty_calm (c : Collector) : Calm c c.finishProperty := by
  rw [Collector.finishProperty_eq]
  refine ⟨rfl, rfl, rfl, fun h => ⟨h.1, h.2.1, ?_, h.2.2.2⟩⟩
  intro ps hps p hp
  obtain ⟨qs, hqs, rfl⟩ := Option.map_eq_some_iff.mp hps
  rcases List.mem_append.mp hp with hp | hp
  · exact h.2.2.1 qs hqs p hp
  · exact Collector.pendingProperty_wellFormed (Option.mem_toList.mp hp)

theorem Collector.leave_calm {c : Collector} {l : Label} {x : Option Char}
    (h₁ : l ≠ .operationName) (h₂ : l ≠ .outputRedirect) :
    Calm c (c.leave l x) ∧ (c.leave l x).stack = c.stack.tail := by
  have htail : Calm c { c with stack := c.stack.tail } := ⟨rfl, rfl, rfl, id⟩
  cases l
  case operationName => exact absurd rfl h₁
  case outputRedirect => exact absurd rfl h₂
  case node =>
    have hcalm := htail.trans (Collector.finishSegment_calm _)
    rw [Collector.leave_node]
    split
    · exact ⟨hcalm.trans ⟨rfl, rfl, rfl, id⟩, rfl⟩
    · exact ⟨hcalm, rfl⟩
  case property =>
    have hcalm := htail.trans (Collector.finishProperty_calm _)
    rw [Collector.leave_property]
    split
    · exact ⟨hcalm.trans ⟨rfl, rfl, rfl, id⟩, rfl⟩
    · exact ⟨hcalm, rfl⟩
  all_goals exact ⟨⟨rfl, rfl, rfl, id⟩, rfl⟩

theorem Collector.step_calm {c : Collector} {e : Event} {st : List Label}
    (h : e.calm? c.stack = some st) : Calm c (c.step e) ∧ (c.step e).stack = st := by
  cases e with
  | entered l n =>
    obtain rfl := Option.some.inj h
    exact c.enter_calm l n
  | character l ch n => exact Collector.take_calm h
  | leaving l n x =>
    simp only [Event.calm?] at h
    split at h
    · cases h
    · rename_i hl
      obtain rfl := Option.some.inj h
      exact Collector.leave_calm (fun h => hl (.inl h)) (fun h => hl (.inr h))

theorem Collector.foldl_step_calm {c : Collector} {es : List Event} {st : List Label}
    (h : es.foldlM Event.calm? c.stack = some st) :
    Calm c (es.foldl Collector.step c) ∧ (es.foldl Collector.step c).stack = st := by
  induction es generalizing c with
  | nil =>
    obtain rfl := Option.some.inj h
    exact ⟨⟨rfl, rfl, rfl, id⟩, rfl⟩
  | cons e es ih =>
    rw [List.foldlM_cons] at h
    obtain ⟨st', hst', h⟩ := Option.bind_eq_some_iff.mp h
    obtain ⟨hcalm, hstack⟩ := Collector.step_calm hst'
    rw [← hstack] at h
    obtain ⟨hcalm', hstack'⟩ := ih h
    exact ⟨hcalm.trans hcalm', hstack'⟩

namespace Place

/-- The labels of the open states, innermost first. -/
def labels (p : Place) : List Label :=
  p.stack.map Frame.state

/-- The field of the operation as it may be at a place. -/
def OperationField (o : Options) : Place → Field → Prop
  | operation g, f => Drafted Grammar.OperationChar o g.forwarded f
  | _, f => f = {}

def TargetField (o : Options) : Place → Field → Prop
  | target _ g, f => Drafted (fun _ => True) o g.forwarded f
  | _, f => f = {}

/-- The collector has followed the events up to a place. -/
structure Sound (o : Options) (p : Place) (c : Collector) : Prop where
  options : c.options = o
  stack : c.stack = p.labels
  operation : OperationField o p c.operation
  target : TargetField o p c.target
  request : c.request.WellFormed

/-- The events are calm from the place `p` to the place `q`, where no draft has begun. -/
structure Passes (o : Options) (p : Place) (es : List Event) (q : Place) : Prop where
  calm : es.foldlM Event.calm? p.labels = some q.labels
  operation : OperationField o q {}
  target : TargetField o q {}

variable {o : Options} {n : Nat} {ch : Char} {p q : Place} {es : List Event} {c : Collector}

theorem Sound.of_passes (h : Sound o p c) (hop : c.operation = {}) (htarget : c.target = {})
    (hpass : Passes o p es q) : Sound o q (es.foldl Collector.step c) := by
  have hcalm := hpass.calm
  rw [← h.stack] at hcalm
  obtain ⟨hc, hstack⟩ := Collector.foldl_step_calm hcalm
  exact ⟨hc.options.trans h.options, hstack, by rw [hc.operation, hop]; exact hpass.operation,
    by rw [hc.target, htarget]; exact hpass.target, hc.request h.request⟩

theorem Passes.of_eq {es' : List Event} {q' : Place}
    (h : ((es', .ok q') : Move) = (es, .ok q)) (hpass : Passes o p es' q') : Passes o p es q := by
  obtain ⟨rfl, hq⟩ := Prod.mk.inj h
  obtain rfl := Except.ok.inj hq
  exact hpass

theorem Passes.cons {r : Place} {e : Event} (he : e.calm? p.labels = some r.labels)
    (h : Passes o r es q) : Passes o p (e :: es) q :=
  ⟨by rw [List.foldlM_cons, he]; exact h.calm, h.operation, h.target⟩

theorem Passes.after {r : Place} {e : Event} {move : Move}
    (he : e.calm? p.labels = some r.labels)
    (hmove : ∀ {es : List Event}, move = (es, .ok q) → Passes o r es q)
    (h : after [e] move = (es, .ok q)) : Passes o p es q := by
  obtain ⟨rfl, hq⟩ := Prod.mk.inj h
  exact .cons he (hmove (Prod.ext rfl hq))

theorem passes_endSegment {f : Opening} (h : endSegment n ch = (es, .ok q)) :
    Passes o (.text (.node f) .none) es q := by
  unfold endSegment at h
  repeat' split at h
  · exact .of_eq h ⟨rfl, rfl, rfl⟩
  · exact .of_eq h ⟨rfl, .start, rfl⟩
  · exact .of_eq h ⟨rfl, rfl, rfl⟩
  · exact .of_eq h ⟨rfl, rfl, rfl⟩

theorem passes_endList {f : Opening} (h : endList n ch = (es, .ok q)) :
    Passes o (.list f) es q :=
  .of_eq h ⟨rfl, rfl, rfl⟩

theorem passes_endProperty {f g : Opening} (h : endProperty n ch f = (es, .ok q)) :
    Passes o (.text (.property f g) .none) es q := by
  unfold endProperty at h
  split at h
  · exact .of_eq h ⟨rfl, rfl, rfl⟩
  · exact .after (r := .list f) rfl passes_endList h

theorem passes_onMark {w : Owner} (h : onMark n ch w = (es, .ok q)) :
    Passes o (.text w .none) es q := by
  cases w with
  | node f =>
    simp only [onMark] at h
    split at h
    · exact .of_eq h ⟨rfl, rfl, rfl⟩
    split at h
    · cases h
    · exact passes_endSegment h
  | nodeName f g =>
    simp only [onMark] at h
    split at h
    · cases h
    split at h
    · cases h
    · exact .after (r := .text (.node f) .none) rfl passes_endSegment h
  | property f g =>
    simp only [onMark] at h
    split at h
    · exact .of_eq h ⟨rfl, rfl, rfl⟩
    · exact passes_endProperty h
  | propertyValue f g v =>
    simp only [onMark] at h
    split at h
    · rename_i b hb
      exact .of_eq h ⟨by cases b <;> rfl, rfl, rfl⟩
    · exact .after (r := .text (.property f g) .none) rfl passes_endProperty h

theorem passes_onText {w : Owner} (h : onText o n ch w = (es, .ok q)) :
    Passes o (.text w .none) es q := by
  unfold onText at h
  split at h
  · exact .of_eq h ⟨rfl, rfl, rfl⟩
  split at h
  · exact .of_eq h ⟨rfl, rfl, rfl⟩
  split at h
  · exact .of_eq h ⟨rfl, rfl, rfl⟩
  split at h
  · exact passes_onMark h
  · exact .of_eq h ⟨by cases w <;> rfl, rfl, rfl⟩

/-- Away from operations and targets, what is read is calm. -/
theorem passes_next (hop : ∀ f, p ≠ .operation f) (hred : ∀ f, p ≠ .redirect f)
    (htarget : ∀ f g, p ≠ .target f g) (h : p.next o n ch = (es, .ok q)) : Passes o p es q := by
  cases p with
  | operation f => exact absurd rfl (hop f)
  | redirect f => exact absurd rfl (hred f)
  | target f g => exact absurd rfl (htarget f g)
  | start =>
    simp only [next] at h
    repeat' split at h
    · exact .of_eq h ⟨rfl, rfl, rfl⟩
    · exact .of_eq h ⟨rfl, rfl, rfl⟩
    · exact .of_eq h ⟨rfl, .start, rfl⟩
    · exact .of_eq h ⟨rfl, rfl, rfl⟩
    · exact .of_eq h ⟨rfl, rfl, rfl⟩
    · exact .after (r := .text (.node { offset := n, opener := ch }) .none) rfl passes_onText h
  | text w s =>
    cases s with
    | none => exact passes_onText h
    | escape e => exact .of_eq h ⟨by cases w <;> rfl, rfl, rfl⟩
    | quotes x =>
      simp only [next, onQuoted] at h
      repeat' split at h
      all_goals exact .of_eq h ⟨by cases w <;> rfl, rfl, rfl⟩
    | quotesEscape x e => exact .of_eq h ⟨by cases w <;> rfl, rfl, rfl⟩
  | literal f g v b x depth =>
    simp only [next, onLiteral] at h
    repeat' split at h
    all_goals exact .of_eq h ⟨by cases b <;> rfl, rfl, rfl⟩
  | list f =>
    simp only [next] at h
    split at h
    · exact .of_eq h ⟨rfl, rfl, rfl⟩
    split at h
    · exact passes_endList h
    · exact .after (r := .text (.property f { offset := n, opener := ch }) .none) rfl
        passes_onText h
  | requestEnd f =>
    simp only [next] at h
    split at h
    · exact .of_eq h ⟨rfl, rfl, rfl⟩
    split at h
    · exact .of_eq h ⟨rfl, rfl, rfl⟩
    · cases h

theorem Sound.leave_operation {f : Opening} {x : Option Char} (h : Sound o (.operation f) c)
    (hf : f.forwarded ≠ 0) : Sound o .start (c.leave .operationName x) := by
  have hdraft : Drafted Grammar.OperationChar o f.forwarded c.operation := h.operation
  have hne : c.operation.isEmpty = false := by simpa [Field.isEmpty] using hdraft.ne_nil hf
  have hleave : c.leave .operationName x = { c with
      stack := c.stack.tail, operation := {}
      request := { c.request with operation := some (c.textOf c.operation) } } := by
    rw [Collector.leave_operationName, hne]
    rfl
  obtain ⟨hclean, hchars⟩ := hdraft.finish hf
  rw [hleave]
  refine ⟨h.options, by simp only [h.stack]; rfl, rfl, h.target, h.request.1, ?_, h.request.2.2⟩
  rintro s ⟨⟩
  rw [Collector.textOf, h.options]
  exact ⟨hclean, hchars⟩

theorem Sound.leave_redirect {f g : Opening} {x : Option Char} (h : Sound o (.target f g) c)
    (hg : g.forwarded ≠ 0) :
    (Collector.step (Collector.step c (.leaving .outputTarget n x))
      (.leaving .outputRedirect n x)).request.WellFormed := by
  have hdraft : Drafted (fun _ => True) o g.forwarded c.target := h.target
  refine ⟨h.request.1, h.request.2.1, h.request.2.2.1, ?_⟩
  rintro d ⟨⟩
  change Text.Clean (c.textOf c.target)
  rw [Collector.textOf, h.options]
  exact (hdraft.finish hg).1

theorem sound_onOperation {f : Opening} (hs : Sound o (.operation f) c)
    (h : onOperation o n ch f = (es, .ok q)) : Sound o q (es.foldl Collector.step c) := by
  have hpart : ∀ {l : Label} {q' : Place}, endOperation n ch f l q' = (es, .ok q) →
      Passes o .start [.entered l n] q' → Sound o q (es.foldl Collector.step c) := by
    intro l q' h' hpass
    unfold endOperation at h'
    split at h'
    · cases h'
    · rename_i hf
      cases h'
      have hstart : Sound o .start (c.leave .operationName (some ch)) := hs.leave_operation hf
      exact hstart.of_passes hstart.operation hstart.target hpass
  unfold onOperation at h
  split at h
  · cases h
    exact hs
  rename_i hskip
  split at h
  · exact hpart h ⟨rfl, rfl, rfl⟩
  split at h
  · exact hpart h ⟨rfl, rfl, rfl⟩
  split at h
  · cases h
  · rename_i h₁ h₂ h₃
    have hop : Grammar.OperationChar ch := by
      simp only [Grammar.OperationChar, List.mem_cons, List.not_mem_nil, or_false] at h₃ ⊢
      grind
    have hdraft : Drafted Grammar.OperationChar o f.forwarded c.operation := hs.operation
    cases h
    change Sound o _ (c.take .operationName ch)
    have hstack : c.stack = [.operationName] := hs.stack
    obtain ⟨hseen, hseenStack⟩ := c.seen_calm ch
    rw [Collector.take_eq, hseenStack, hstack]
    refine ⟨hseen.options.trans hs.options, hseenStack.trans hs.stack, ?_, ?_,
      hseen.request hs.request⟩
    · change Drafted _ o (f.forwarded + 1) ((c.seen ch).operation.push ch false)
      rw [hseen.operation]
      exact hdraft.push hop fun hf => by simpa [hf] using hskip
    · exact hseen.target.trans hs.target

theorem sound_onTarget {f g : Opening} (hs : Sound o (.target f g) c)
    (h : onTarget o n ch f g = (es, .ok q)) : Sound o q (es.foldl Collector.step c) := by
  unfold onTarget at h
  split at h
  · cases h
    exact hs
  · rename_i hskip
    have hdraft : Drafted (fun _ => True) o g.forwarded c.target := hs.target
    cases h
    change Sound o _ (c.take .outputTarget ch)
    have hstack : c.stack = [.outputTarget, .outputRedirect] := hs.stack
    obtain ⟨hseen, hseenStack⟩ := c.seen_calm ch
    rw [Collector.take_eq, hseenStack, hstack]
    refine ⟨hseen.options.trans hs.options, hseenStack.trans hs.stack, ?_, ?_,
      hseen.request hs.request⟩
    · exact hseen.operation.trans hs.operation
    · change Drafted _ o (g.forwarded + 1) ((c.seen ch).target.push ch false)
      rw [hseen.target]
      exact hdraft.push trivial fun hg => by simpa [hg] using hskip

theorem sound_redirect {f : Opening} (hs : Sound o (.redirect f) c)
    (h : next o n ch (.redirect f) = (es, .ok q)) : Sound o q (es.foldl Collector.step c) := by
  simp only [next] at h
  split at h
  · split at h
    · cases h
      exact hs.of_passes hs.operation hs.target ⟨rfl, rfl, rfl⟩
    · cases h
  · obtain ⟨rfl, hq⟩ := Prod.mk.inj h
    have hpass : Passes o (.redirect f) [.entered .outputTarget n]
        (.target f { offset := n, opener := ch }) := ⟨rfl, rfl, .start⟩
    have htarget : onTarget o n ch f { offset := n, opener := ch }
        = ((onTarget o n ch f { offset := n, opener := ch }).1, .ok q) := Prod.ext rfl hq
    rw [List.foldl_append]
    exact sound_onTarget (hs.of_passes hs.operation hs.target hpass) htarget

/-- The collector stays with the place. -/
theorem sound_next (hs : Sound o p c) (h : p.next o n ch = (es, .ok q)) :
    Sound o q (es.foldl Collector.step c) := by
  cases p with
  | operation f => exact sound_onOperation hs h
  | redirect f => exact sound_redirect hs h
  | target f g => exact sound_onTarget hs h
  | start => exact hs.of_passes hs.operation hs.target (passes_next nofun nofun nofun h)
  | text w s => exact hs.of_passes hs.operation hs.target (passes_next nofun nofun nofun h)
  | literal f g v b x depth =>
    exact hs.of_passes hs.operation hs.target (passes_next nofun nofun nofun h)
  | list f => exact hs.of_passes hs.operation hs.target (passes_next nofun nofun nofun h)
  | requestEnd f => exact hs.of_passes hs.operation hs.target (passes_next nofun nofun nofun h)

theorem sound_feed {cs : List Char} (hs : Sound o p c) (h : p.feed o n cs = (es, .ok q)) :
    Sound o q (es.foldl Collector.step c) := by
  refine feed_invariant (fun _ es p => Sound o p (es.foldl Collector.step c)) n
    (fun hs hnext => ?_) [] [] hs h
  rw [List.foldl_append]
  exact sound_next hs hnext

/-- A line that may end leaves a well-formed request. -/
theorem wellFormed_finish (hs : Sound o p c) (h : (p.finish o n).2 = none) :
    ((p.finish o n).1.foldl Collector.step c).request.WellFormed := by
  have hcalm : ∀ (es : List Event) {st : List Label},
      es.foldlM Event.calm? p.labels = some st →
      (es.foldl Collector.step c).request.WellFormed := by
    intro es st hes
    rw [← hs.stack] at hes
    exact (Collector.foldl_step_calm hes).1.request hs.request
  cases p with
  | start => exact hs.request
  | text w s =>
    cases s with
    | none =>
      cases w with
      | node f => exact hcalm [.leaving .node n none] rfl
      | nodeName f g => exact hcalm [.leaving .nodeName n none, .leaving .node n none] rfl
      | property f g => cases h
      | propertyValue f g v => cases h
    | escape e => cases h
    | quotes x => cases h
    | quotesEscape x e => cases h
  | literal f g v b x depth =>
    simp only [finish] at h
    split at h
    · cases h
    · cases h
  | operation f =>
    simp only [finish] at h
    split at h
    · cases h
    · rename_i hf
      exact (hs.leave_operation (x := none) hf).request
  | list f => cases h
  | requestEnd f => exact hcalm [.leaving .requestEnd n none] rfl
  | redirect f => cases h
  | target f g =>
    by_cases hg : g.forwarded = 0
    · simp only [finish, if_pos hg] at h
      cases h
    · simp only [finish, if_neg hg]
      exact hs.leave_redirect (x := none) hg

end Place

/-- A line is read into the collector by its way through the places. -/
theorem Collector.read_eq (o : Options) (line : String) (c : Collector) :
    Collector.read o line c
      = { outcome := Place.verdict o (Place.read o 0 line.toList .start).2
          consumer := (Place.read o 0 line.toList .start).1.foldl Collector.step c
          notes := (Request.run o Sink.record line #[]).notes } := by
  obtain ⟨hevents, houtcome⟩ := Request.run_record o line
  have hread : Collector.read o line c = (Request.run o Sink.record line #[]).hand
      ((Request.run o Sink.record line #[]).consumer.toList.foldl Collector.step c) :=
    Request.run_ofStep o Collector.step line c
  rw [hread, Report.hand, hevents, houtcome]

/-- The request of a line is what the collector makes of the events on its way through the
places. -/
theorem Request.parse_eq (o : Options) (line : String) :
    Request.parse o line = (Place.verdict o (Place.read o 0 line.toList .start).2).map fun () =>
      ((Place.read o 0 line.toList .start).1.foldl Collector.step { options := o }).request := by
  rw [Request.parse, Collector.read_eq]

theorem Request.parse_eq_ok_iff {o : Options} {line : String} {r : Request} :
    Request.parse o line = .ok r ↔ (Place.read o 0 line.toList .start).2 = none
      ∧ ((Place.read o 0 line.toList .start).1.foldl Collector.step
        { options := o }).request = r := by
  rw [Request.parse_eq]
  rcases (Place.read o 0 line.toList .start).2 with _ | e
  · simp [Place.verdict, Except.map]
  · simp [Place.verdict, Except.map]

/-- No line gives a request that is not well formed. -/
theorem Request.wellFormed_of_parse {o : Options} {line : String} {r : Request}
    (h : Request.parse o line = .ok r) : r.WellFormed := by
  obtain ⟨hnone, rfl⟩ := Request.parse_eq_ok_iff.mp h
  have hstart : Place.Sound o .start { options := o } :=
    ⟨rfl, rfl, rfl, rfl, by simp [Request.WellFormed]⟩
  rcases hfeed : Place.feed o 0 line.toList .start with ⟨es, e | q⟩
  · rw [Place.read, hfeed] at hnone
    cases hnone
  · rw [Place.read, hfeed] at hnone ⊢
    simp only [Place.delay, List.foldl_append]
    exact Place.wellFormed_finish (Place.sound_feed hstart hfeed) hnone

end RequestLine
