import RequestLine.Proofs.Coverage
import RequestLine.Proofs.Spelling
import RequestLine.Proofs.Viable

/-!
# The separator that a line ends on

The collector remembers one separator, and nearly every event overwrites it. A character that is not
blank settles it: whatever was remembered before, what is remembered afterwards can be told from the
events at that character alone (`Place.marks_next`). Blanks change nothing, because they are passed
over, or passed on where they do not count, or they open the target of a redirection, and there no
separator is remembered (`Place.next_blank`). The end of the line changes nothing either. So the
last character that is not blank decides (`separators_are_exact`).
-/

namespace RequestLine

/-- The events show that the character `ch` at `k` is the separator. -/
def Separator.ShownBy (ch : Char) (k : Nat) (es : List Event) : Separator → Prop
  | node => ch = '/' ∧ .entered .node k ∈ es
  | nodeTypeName => .entered .nodeName k ∈ es
  | addressOperationName => .entered .operationName k ∈ es
  | propertyListStart => .entered .propertyList k ∈ es
  | property => .leaving .property k (some ',') ∈ es
  | propertyValue => .entered .propertyValue k ∈ es

theorem Separator.shownBy_append {ch : Char} {k : Nat} {es es' : List Event} {x : Separator} :
    x.ShownBy ch k (es ++ es') ↔ x.ShownBy ch k es ∨ x.ShownBy ch k es' := by
  cases x <;> simp [ShownBy, and_or_left]

/-- Only events at the character count. -/
theorem Separator.shownBy_iff_of_offset {ch : Char} {k : Nat} {es es' : List Event}
    (h : ∀ e, e.offset = k → (e ∈ es ↔ e ∈ es')) {x : Separator} :
    x.ShownBy ch k es ↔ x.ShownBy ch k es' := by
  have hentered : ∀ l, Event.entered l k ∈ es ↔ .entered l k ∈ es' := fun l => h _ rfl
  have hleaving : ∀ l y, Event.leaving l k y ∈ es ↔ .leaving l k y ∈ es' := fun l y => h _ rfl
  cases x <;> simp only [ShownBy, hentered, hleaving]

/-- The separator after the event, if it is `s` before it. -/
def Event.mark (o : Options) (s : Option Separator) : Event → Option Separator
  | .entered .node _ => some .node
  | .entered .nodeName _ => some .nodeTypeName
  | .entered .operationName _ => some .addressOperationName
  | .entered .propertyList _ => some .propertyListStart
  | .entered .property _ => s
  | .entered .propertyValue _ => some .propertyValue
  | .entered _ _ => none
  | .character _ ch _ => if o.isBlank ch then s else none
  | .leaving .node _ x => if x = some '/' then some .node else s
  | .leaving .property _ x => if x = some ',' then some .property else s
  | .leaving .propertyList _ _ => none
  | .leaving _ _ _ => s

namespace Collector

theorem take_separator (c : Collector) (l : Label) (ch : Char) :
    (c.take l ch).options = c.options
      ∧ (c.take l ch).separator = if c.options.isBlank ch then c.separator else none := by
  have hseen : (c.seen ch).options = c.options
      ∧ (c.seen ch).separator = if c.options.isBlank ch then c.separator else none := by
    unfold seen
    split <;> exact ⟨rfl, rfl⟩
  rw [take_eq]
  split
  · exact hseen
  · split
    · exact hseen
    · rename_i owner keep _
      cases owner <;> exact hseen

theorem separator_step (c : Collector) (e : Event) :
    (c.step e).options = c.options ∧ (c.step e).separator = e.mark c.options c.separator := by
  cases e with
  | entered l n => cases l <;> exact ⟨rfl, rfl⟩
  | character l ch n => exact c.take_separator l ch
  | leaving l n x =>
    change (c.leave l x).options = _ ∧ (c.leave l x).separator = _
    cases l
    case node =>
      simp only [leave_node, Event.mark]
      split <;> exact ⟨rfl, rfl⟩
    case operationName =>
      rw [leave_operationName]
      split <;> exact ⟨rfl, rfl⟩
    case property =>
      simp only [leave_property, Event.mark]
      split <;> exact ⟨rfl, rfl⟩
    all_goals exact ⟨rfl, rfl⟩

theorem separator_foldl_step (c : Collector) (es : List Event) :
    (es.foldl step c).separator = es.foldl (Event.mark c.options) c.separator := by
  induction es generalizing c with
  | nil => rfl
  | cons e es ih =>
    obtain ⟨hoptions, hseparator⟩ := c.separator_step e
    rw [List.foldl_cons, ih, hoptions, hseparator, List.foldl_cons]

end Collector

namespace Place

variable {o : Options} {n : Nat} {ch : Char} {p q : Place} {s : Option Separator}
  {es : List Event}

/-- No separator is remembered here, and characters may leave it at that: in the literals and
escapes of a text, and before a target. -/
def masks : Place → Bool
  | text _ .none => false
  | text _ _ => true
  | redirect _ => true
  | _ => false

/-- The events of the character `ch` at `n`, which lead to the place `q`, settle the separator. -/
structure Marked (o : Options) (n : Nat) (ch : Char) (s : Option Separator) (es : List Event)
    (q : Place) : Prop where
  shown : ∀ x, es.foldl (Event.mark o) s = some x ↔ x.ShownBy ch n es
  literal : es.any (·.state.isLiteral) = true → es.foldl (Event.mark o) s = none
  masked : q.masks = true → es.foldl (Event.mark o) s = none

/-- If the move leads to a place, its events settle the separator. -/
def Marks (o : Options) (n : Nat) (ch : Char) (s : Option Separator) (move : Move) : Prop :=
  ∀ q, move.2 = .ok q → Marked o n ch s move.1 q

theorem Marks.of_none (hes : es.foldl (Event.mark o) s = none)
    (hshown : ∀ x : Separator, ¬ x.ShownBy ch n es) : Marks o n ch s (es, .ok q) := by
  rintro q ⟨⟩
  refine ⟨fun x => ?_, fun _ => hes, fun _ => hes⟩
  rw [hes]
  exact ⟨nofun, fun hx => absurd hx (hshown x)⟩

theorem Marks.of_some {v : Separator} (hes : es.foldl (Event.mark o) s = some v)
    (hshown : ∀ x : Separator, x.ShownBy ch n es ↔ v = x)
    (hliteral : es.any (·.state.isLiteral) = false) (hmasks : q.masks = false) :
    Marks o n ch s (es, .ok q) := by
  rintro q ⟨⟩
  refine ⟨fun x => ?_, fun h => ?_, fun h => ?_⟩
  · rw [hes, hshown, Option.some.injEq]
  · rw [hliteral] at h
    cases h
  · rw [hmasks] at h
    cases h

theorem Marks.of_error {e : ParseError} : Marks o n ch s (es, .error e) :=
  fun q hq => by cases hq

/-- An event that shows no separator, with a move that settles it whatever it was. -/
theorem Marks.after {x : Event} {move : Move} (h : ∀ s, Marks o n ch s move)
    (hx : ∀ y : Separator, ¬ y.ShownBy ch n [x]) (hl : x.state.isLiteral = false) :
    Marks o n ch s (after [x] move) := by
  intro q hq
  obtain ⟨hshown, hliteral, hmasked⟩ := h (x.mark o s) q hq
  refine ⟨fun y => ?_, fun hany => hliteral ?_, hmasked⟩
  · have happ : y.ShownBy ch n ([x] ++ move.1) ↔ y.ShownBy ch n move.1 := by
      rw [Separator.shownBy_append, or_iff_right (hx y)]
    exact (hshown y).trans happ.symm
  · simpa [Place.after, hl] using hany

theorem marks_character (h : o.isBlank ch = false) (l : Label) :
    Marks o n ch s ([.character l ch n], .ok q) := by
  refine .of_none (by simp [Event.mark, h]) fun x => ?_
  cases x <;> simp [Separator.ShownBy]

theorem marks_endSegment : Marks o n ch s (endSegment n ch) := by
  unfold endSegment
  repeat' split
  · rename_i hch
    subst hch
    exact .of_some rfl (fun x => by cases x <;> simp [Separator.ShownBy]) rfl rfl
  · rename_i hne _
    exact .of_some rfl (fun x => by cases x <;> simp [Separator.ShownBy, hne]) rfl rfl
  · rename_i hne _ _
    exact .of_some rfl (fun x => by cases x <;> simp [Separator.ShownBy, hne]) rfl rfl
  · exact .of_none rfl fun x => by cases x <;> simp [Separator.ShownBy]

theorem marks_endList : Marks o n ch s (endList n ch) :=
  .of_none rfl fun x => by cases x <;> simp [Separator.ShownBy]

theorem marks_endProperty {f : Opening} : Marks o n ch s (endProperty n ch f) := by
  unfold endProperty
  split
  · rename_i hch
    subst hch
    exact .of_some rfl (fun x => by cases x <;> simp [Separator.ShownBy]) rfl rfl
  · rename_i hne
    exact .after (fun _ => marks_endList)
      (fun y => by cases y <;> simp [Separator.ShownBy, Ne.symm hne]) rfl

theorem marks_onMark (h : o.isBlank ch = false) {w : Owner} :
    Marks o n ch s (onMark n ch w) := by
  cases w with
  | node f =>
    simp only [onMark]
    repeat' split
    · exact .of_some rfl (fun x => by cases x <;> simp [Separator.ShownBy]) rfl rfl
    · exact .of_error
    · exact marks_endSegment
  | nodeName f g =>
    simp only [onMark]
    repeat' split
    · exact .of_error
    · exact .of_error
    · exact .after (fun _ => marks_endSegment)
        (fun y => by cases y <;> simp [Separator.ShownBy]) rfl
  | property f g =>
    simp only [onMark]
    split
    · exact .of_some rfl (fun x => by cases x <;> simp [Separator.ShownBy]) rfl rfl
    · exact marks_endProperty
  | propertyValue f g v =>
    simp only [onMark]
    split
    · rename_i b hb
      refine .of_none ?_ fun x => by cases x <;> cases b <;> simp [Separator.ShownBy, Bracket.label]
      simp [Event.mark, h]
    · exact .after (fun _ => marks_endProperty)
        (fun y => by cases y <;> simp [Separator.ShownBy]) rfl

theorem marks_onText (h : o.isBlank ch = false) {w : Owner} :
    Marks o n ch s (onText o n ch w) := by
  unfold onText
  split
  · rename_i hblank
    simp [h] at hblank
  split
  · exact .of_none rfl fun x => by cases x <;> simp [Separator.ShownBy]
  split
  · exact .of_none rfl fun x => by cases x <;> simp [Separator.ShownBy]
  split
  · exact marks_onMark h
  · exact marks_character h w.label

theorem marks_onTarget (h : o.isBlank ch = false) {f g : Opening} :
    Marks o n ch s (onTarget o n ch f g) := by
  unfold onTarget
  split
  · rename_i hblank
    simp [h] at hblank
  · exact marks_character h .outputTarget

/-- A character that is not blank settles the separator. -/
theorem marks_next (h : o.isBlank ch = false) (hs : p.masks = true → s = none) :
    Marks o n ch s (p.next o n ch) := by
  cases p with
  | start =>
    simp only [next]
    split
    · rename_i hblank
      simp [h] at hblank
    repeat' split
    · rename_i hch
      exact .of_some rfl (fun x => by cases x <;> simp [Separator.ShownBy, hch]) rfl rfl
    · rename_i hne _
      exact .of_some rfl (fun x => by cases x <;> simp [Separator.ShownBy]) rfl rfl
    · exact .of_some rfl (fun x => by cases x <;> simp [Separator.ShownBy]) rfl rfl
    · exact .of_none rfl fun x => by cases x <;> simp [Separator.ShownBy]
    · rename_i hne _ _ _
      exact .after (fun _ => marks_onText h)
        (fun y => by cases y <;> simp [Separator.ShownBy, hne]) rfl
  | text w t =>
    cases t with
    | none => exact marks_onText h
    | escape e =>
      refine .of_none (by simp [Event.mark, h]) fun x => by cases x <;> simp [Separator.ShownBy]
    | quotes x =>
      obtain rfl := hs rfl
      simp only [next, onQuoted]
      repeat' split
      · exact .of_none rfl fun x => by cases x <;> simp [Separator.ShownBy]
      · exact .of_none rfl fun x => by cases x <;> simp [Separator.ShownBy]
      · exact marks_character h .quotes
    | quotesEscape x e =>
      refine .of_none (by simp [Event.mark, h]) fun x => by cases x <;> simp [Separator.ShownBy]
  | literal f g v b k depth =>
    simp only [next, onLiteral]
    repeat' split
    · exact marks_character h b.label
    · exact marks_character h b.label
    · refine .of_none ?_ fun x => by cases x <;> cases b <;> simp [Separator.ShownBy, Bracket.label]
      cases b <;> simp [Event.mark, h, Bracket.label]
    · exact marks_character h b.label
  | operation f =>
    simp only [next, onOperation, endOperation]
    split
    · rename_i hblank
      simp [h] at hblank
    repeat' split
    · exact .of_error
    · exact .of_some rfl (fun x => by cases x <;> simp [Separator.ShownBy]) rfl rfl
    · exact .of_error
    · exact .of_none rfl fun x => by cases x <;> simp [Separator.ShownBy]
    · exact .of_error
    · exact marks_character h .operationName
  | list f =>
    simp only [next]
    split
    · rename_i hblank
      simp [h] at hblank
    split
    · exact marks_endList
    · exact .after (fun _ => marks_onText h) (fun y => by cases y <;> simp [Separator.ShownBy]) rfl
  | requestEnd f =>
    simp only [next]
    split
    · rename_i hblank
      simp [h] at hblank
    split
    · exact .of_none rfl fun x => by cases x <;> simp [Separator.ShownBy]
    · exact .of_error
  | redirect f =>
    simp only [next]
    split
    · split
      · exact marks_character h .outputRedirect
      · exact .of_error
    · exact .after (fun _ => marks_onTarget h)
        (fun y => by cases y <;> simp [Separator.ShownBy]) rfl
  | target f g => exact marks_onTarget h

/-- A blank does not fail, and it changes nothing about the separator. -/
theorem next_blank (h : o.isBlank ch = true) (hs : p.masks = true → s = none) :
    ∃ es q, p.next o n ch = (es, .ok q) ∧ es.foldl (Event.mark o) s = s
      ∧ (q.masks = true → s = none) := by
  have hne : ∀ {x : Char}, Text.isMark x = true → ch ≠ x := fun hx => Options.ne_of_isBlank h hx
  have hquote : ch ≠ '"' := hne rfl
  have hslash : ch ≠ '\\' := hne rfl
  have hgreater : ch ≠ '>' := hne rfl
  have hpass : ∀ (l : Label) (q : Place), (q.masks = true → s = none) →
      ∃ es q', (([.character l ch n], .ok q) : Move) = (es, .ok q')
        ∧ es.foldl (Event.mark o) s = s ∧ (q'.masks = true → s = none) :=
    fun l q hq => ⟨_, q, rfl, by simp [Event.mark, h], hq⟩
  have hopen : false = true → s = none := Bool.noConfusion
  cases p with
  | start => exact ⟨[], .start, by simp [next, h], rfl, hs⟩
  | text w t =>
    cases t with
    | none =>
      have hmarks : ch ∉ w.marks := fun hmem => by
        rw [o.isBlank_of_isMark (Owner.isMark_of_mem_marks hmem)] at h
        cases h
      simp only [next, onText, h, hquote, hslash, hmarks, Bool.true_and, decide_false,
        Bool.false_and, Bool.false_eq_true, if_false]
      split
      · exact ⟨[], _, rfl, rfl, hs⟩
      · exact hpass _ _ hopen
    | escape e =>
      refine ⟨_, _, rfl, ?_, hopen⟩
      simp [Event.mark, h]
    | quotes x =>
      simp only [next, onQuoted, hquote, hslash, decide_false, Bool.false_and, Bool.false_eq_true,
        if_false]
      exact hpass _ _ hs
    | quotesEscape x e =>
      refine ⟨_, _, rfl, ?_, hs⟩
      simp [Event.mark, h]
  | literal f g v b k depth =>
    have hopener : ch ≠ b.opener := hne (by cases b <;> rfl)
    have hcloser : ch ≠ b.closer := hne (by cases b <;> rfl)
    simp only [next, onLiteral, hopener, hcloser, if_false]
    exact hpass _ _ hopen
  | operation f =>
    have hmarks : ch ∉ [':', '/', '=', ')'] := by
      simp [hne (x := ':') rfl, hne (x := '/') rfl, hne (x := '=') rfl, hne (x := ')') rfl]
    have hparen : ch ≠ '(' := hne rfl
    simp only [next, onOperation, h, hparen, hgreater, hmarks, Bool.true_and, if_false]
    split
    · exact ⟨[], _, rfl, rfl, hopen⟩
    · exact hpass _ _ hopen
  | list f => exact ⟨[], .list f, by simp [next, h], rfl, hopen⟩
  | requestEnd f => exact ⟨[], .requestEnd f, by simp [next, h], rfl, hopen⟩
  | redirect f =>
    obtain rfl := hs rfl
    refine ⟨[.entered .outputTarget n], .target f { offset := n, opener := ch }, ?_, rfl, hopen⟩
    simp only [next, hgreater, if_false, onTarget, h, Place.after]
    rfl
  | target f g =>
    simp only [next, onTarget, h, Bool.true_and]
    split
    · exact ⟨[], _, rfl, rfl, hopen⟩
    · exact hpass _ _ hopen

theorem feed_of_blanks {cs : List Char} (h : ∀ c ∈ cs, o.isBlank c = true)
    (hs : p.masks = true → s = none) : ∃ es q, p.feed o n cs = (es, .ok q)
      ∧ es.foldl (Event.mark o) s = s := by
  induction cs generalizing n p with
  | nil => exact ⟨[], p, rfl, rfl⟩
  | cons ch cs ih =>
    obtain ⟨es, q, hnext, hes, hq⟩ := next_blank (n := n) (h ch List.mem_cons_self) hs
    obtain ⟨es', r, hfeed, hes'⟩ :=
      ih (n := n + ch.utf8Size) (fun c hc => h c (List.mem_cons_of_mem ch hc)) hq
    refine ⟨es ++ es', r, by simp only [feed, hnext, hfeed, Place.after], ?_⟩
    rw [List.foldl_append, hes, hes']

/-- What the end of the line closes shows no separator and hides none. -/
theorem mark_finish : (p.finish o n).1.foldl (Event.mark o) s = s := by
  cases p with
  | text w t => cases w <;> cases t <;> rfl
  | literal f g v b x depth =>
    simp only [finish]
    split <;> cases b <;> rfl
  | target f g =>
    simp only [finish]
    split <;> rfl
  | _ => rfl

theorem masks_next (hs : p.masks = true → s = none) (hnext : p.next o n ch = (es, .ok q)) :
    q.masks = true → es.foldl (Event.mark o) s = none := by
  rcases hch : o.isBlank ch with _ | _
  · have hmarks : Marks o n ch s (es, .ok q) := hnext ▸ marks_next hch hs
    exact (hmarks q rfl).masked
  · obtain ⟨es', q', hblank, hes, hq⟩ := next_blank (n := n) hch hs
    rw [hnext] at hblank
    cases hblank
    rw [hes]
    exact hq

theorem masks_feed {cs : List Char} (h : start.feed o n cs = (es, .ok q)) (hq : q.masks = true) :
    es.foldl (Event.mark o) none = none := by
  refine feed_invariant (fun _ es q => q.masks = true → es.foldl (Event.mark o) none = none) n
    (fun hs hnext => ?_) [] [] (fun _ => rfl) h hq
  rw [List.foldl_append]
  exact masks_next hs hnext

/-- The events of a stretch stand at its characters. -/
theorem offset_feed {cs : List Char} (h : p.feed o n cs = (es, .ok q)) :
    ∀ e ∈ es, n ≤ e.offset ∧ e.offset < n + Text.byteSize cs := by
  refine feed_invariant
    (fun cs es _ => ∀ e ∈ es, n ≤ e.offset ∧ e.offset < n + Text.byteSize cs) n
    (fun {cs es p ch es' q} hes hnext e he => ?_) [] [] (by simp) h
  have hpos := ch.utf8Size_pos
  rw [Text.byteSize_append, Text.byteSize_cons, Text.byteSize_nil]
  rcases List.mem_append.mp he with he | he
  · have hlt := hes e he
    omega
  · have hspends : Spends o (n + Text.byteSize cs) ch (es', .ok q) := hnext ▸ spends_next
    have hat := (hspends q rfl).offset e he
    omega

/-- The last character of a line that is not blank decides on the separator. -/
theorem mark_of_last {before after : List Char} (hch : o.isBlank ch = false)
    (hafter : ∀ c ∈ after, o.isBlank c = true)
    (h : start.feed o 0 (before ++ ch :: after) = (es, .ok q)) :
    let events := (start.read o 0 (before ++ ch :: after)).1
    (∀ x, events.foldl (Event.mark o) none = some x ↔ x.ShownBy ch (Text.byteSize before) events)
      ∧ ∀ e ∈ events, e.offset = Text.byteSize before → e.state.isLiteral = true →
        events.foldl (Event.mark o) none = none := by
  intro events
  rcases hbefore : start.feed o 0 before with ⟨es₁, e | p⟩
  · rw [feed_append_of_error hbefore] at h
    cases h
  rw [feed_append hbefore, Nat.zero_add] at h
  rcases hnext : p.next o (Text.byteSize before) ch with ⟨es₂, e | r⟩
  · rw [feed, hnext] at h
    cases h
  have hmarks : Marks o (Text.byteSize before) ch (es₁.foldl (Event.mark o) none) (es₂, .ok r) :=
    hnext ▸ marks_next hch (masks_feed hbefore)
  obtain ⟨hshown, hliteral, hmasked⟩ := hmarks r rfl
  let k := Text.byteSize before + ch.utf8Size
  obtain ⟨es₃, t, hblanks, hkept⟩ := feed_of_blanks (n := k) hafter hmasked
  obtain ⟨ls, hls⟩ := finish_leavings (o := o) (n := k + Text.byteSize after) t
  have hevents : events
      = es₁ ++ (es₂ ++ (es₃ ++ (t.finish o (k + Text.byteSize after)).1)) := by
    change (start.read o 0 (before ++ ch :: after)).1 = _
    rw [read_append hbefore, Nat.zero_add, read_cons hnext, read, hblanks]
    rfl
  have hfold : events.foldl (Event.mark o) none
      = es₂.foldl (Event.mark o) (es₁.foldl (Event.mark o) none) := by
    rw [hevents, List.foldl_append, List.foldl_append, List.foldl_append, hkept, mark_finish]
  have hat : ∀ e : Event, e.offset = Text.byteSize before → (e ∈ events ↔ e ∈ es₂) := by
    intro e he
    have hpos := ch.utf8Size_pos
    have hearlier : e ∉ es₁ := fun hmem => by
      have := offset_feed hbefore e hmem
      omega
    have hlater : e ∉ es₃ := fun hmem => by
      have := offset_feed hblanks e hmem
      omega
    have hend : e ∉ (t.finish o (k + Text.byteSize after)).1 := fun hmem => by
      rw [hls] at hmem
      obtain ⟨l, -, rfl⟩ := List.mem_map.mp hmem
      simp only [Event.offset] at he
      omega
    simp only [hevents, List.mem_append, hearlier, hlater, hend, false_or, or_false]
  rw [hfold]
  refine ⟨fun x => ?_, fun e hmem he hl => hliteral ?_⟩
  · rw [hshown x]
    exact Separator.shownBy_iff_of_offset fun e he => (hat e he).symm
  · exact List.any_eq_true.mpr ⟨e, (hat e he).mp hmem, hl⟩

/-- Blanks behind a line change nothing about the separator. -/
theorem mark_append_blanks (cs : List Char) {blanks : List Char}
    (h : ∀ c ∈ blanks, o.isBlank c = true) :
    (start.read o 0 (cs ++ blanks)).1.foldl (Event.mark o) none
      = (start.read o 0 cs).1.foldl (Event.mark o) none := by
  rcases hfeed : start.feed o 0 cs with ⟨es, e | p⟩
  · rw [read, read, feed_append_of_error hfeed, hfeed]
  · obtain ⟨es', q, hblanks, hkept⟩ :=
      feed_of_blanks (n := 0 + Text.byteSize cs) h (masks_feed hfeed)
    rw [read_append hfeed, read, read, hblanks, hfeed]
    simp only [delay, List.foldl_append, hkept, mark_finish]

end Place

theorem Collector.read_separator (o : Options) (line : String) :
    (Collector.read o line { options := o }).consumer.separator
      = (Place.read o 0 line.toList .start).1.foldl (Event.mark o) none := by
  rw [Collector.read_eq]
  exact Collector.separator_foldl_step _ _

/-- If a line does not fail at a character, its last character that is not blank decides which
separator it ends on: the one that the events at this character show, and none if they show none, so
none inside of literals and escapes. A blank line ends on none, and blanks behind a line never
change the separator. -/
theorem separators_are_exact (o : Options) (line : String) :
    let report := Collector.read o line { options := o }
    let events := (Request.run o Sink.record line #[]).consumer.toList
    ((∀ stop e, report.outcome = .error stop → stop.error? = some e → e.found = none) →
      ∀ before ch after, line.toList = before ++ ch :: after → o.isBlank ch = false →
        (∀ c ∈ after, o.isBlank c = true) →
          (∀ s : Separator, report.consumer.separator = some s
            ↔ s.ShownBy ch (Text.byteSize before) events)
          ∧ ∀ e ∈ events, e.offset = Text.byteSize before → e.state.isLiteral = true →
            report.consumer.separator = none)
    ∧ ((∀ c ∈ line.toList, o.isBlank c = true) → report.consumer.separator = none)
    ∧ ∀ blanks : String, (∀ c ∈ blanks.toList, o.isBlank c = true) →
      (Collector.read o (line ++ blanks) { options := o }).consumer.separator
        = report.consumer.separator := by
  intro report events
  have hseparator : report.consumer.separator = _ := Collector.read_separator o line
  have hevents : events = (Place.read o 0 line.toList .start).1 := (Request.run_record o line).1
  refine ⟨fun hfound before ch after hline hch hafter => ?_, fun hblank => ?_,
    fun blanks hblanks => ?_⟩
  · obtain ⟨es, q, hfeed⟩ := Place.feed_of_found_none fun e he => by
      have hout : report.outcome = _ := congrArg Report.outcome (Collector.read_eq o line _)
      obtain ⟨stop, hverdict, hstop⟩ := Place.exists_stop_of_error o e
      exact hfound stop e (by rw [hout, he, hverdict]) hstop
    rw [hseparator, hevents, hline]
    rw [hline] at hfeed
    exact Place.mark_of_last hch hafter hfeed
  · have hnone := Place.mark_append_blanks [] hblank
    rw [hseparator]
    exact hnone
  · rw [hseparator, Collector.read_separator, String.toList_append]
    exact Place.mark_append_blanks _ hblanks

/-- The equals sign is the last character of the line, and a value is entered at it. -/
theorem separator_before_blank :
    let line := ":op(\"a,\" = "
    (Collector.read {} line { options := {} }).consumer.separator = some .propertyValue
      ∧ (Collector.read {} (line ++ "\t") { options := {} }).consumer.separator
        = some .propertyValue := by
  intro line
  have hout : (Collector.read {} line { options := {} }).outcome
      = .error (.failed ⟨.missingCloseParen, 3, .propertyList, none⟩) := by decide +kernel
  have hfound : ∀ stop e, (Collector.read {} line { options := {} }).outcome = .error stop →
      stop.error? = some e → e.found = none := by
    intro stop e hstop he
    rw [hout] at hstop
    cases hstop
    cases he
    rfl
  have hentered : .entered .propertyValue 9
      ∈ (Request.run {} Sink.record line #[]).consumer.toList := by decide +kernel
  obtain ⟨hlast, -, hblanks⟩ := separators_are_exact {} line
  have hline : line.toList = ":op(\"a,\" ".toList ++ '=' :: [' '] := by decide +kernel
  have hspace : ∀ c ∈ [' '], Options.isBlank {} c = true := by
    simp [Options.isBlank, Text.isPlainBlank]
  have htab : ∀ c ∈ "\t".toList, Options.isBlank {} c = true := by
    simp [Options.isBlank, Text.isPlainBlank]
  have hvalue := ((hlast hfound _ '=' [' '] hline rfl hspace).1 .propertyValue).mpr hentered
  exact ⟨hvalue, (hblanks "\t" htab).trans hvalue⟩

end RequestLine
