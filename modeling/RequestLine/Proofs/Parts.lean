import RequestLine.Proofs.WellFormed

/-!
# The parts of a line and their order

Between two characters of a request line the open states form one of few stacks, all of them listed
in `Request.openStacks`, and the outermost states are opened in the order of `Request.partOrder`:
nodes, the operation, the property list with what follows it, the redirection. Both are read off
the places (`Place.mem_openStacks`, `Place.ordered_read`): a character that opens an outermost state
opens one that may come next, and no place but the first has an empty stack, so a line is absolute
only by its first character. A sink can cut a run short and change nothing else about it, so
`reachable_stacks_and_part_order` is for all sinks.
-/

open scoped Computability

namespace RequestLine

variable {σ : Type}

/-- The number of open states after the event, if `opened` are open before it. -/
def Event.depth (opened : Nat) : Event → Nat
  | .entered _ _ => opened + 1
  | .character _ _ _ => opened
  | .leaving _ _ _ => opened - 1

/-- The states that are entered while no other is open, in order. Before the events, `opened` states
are open. -/
def outermost : Nat → List Event → List Label
  | _, [] => []
  | opened, e :: es =>
    match opened, e with
    | 0, .entered l _ => l :: outermost 1 es
    | _, _ => outermost (e.depth opened) es

/-- A character is passed on outside of all states. -/
def Event.isRoot : Event → Bool
  | .character .initial _ _ => true
  | _ => false

theorem outermost_append (opened : Nat) (es es' : List Event) :
    outermost opened (es ++ es')
      = outermost opened es ++ outermost (es.foldl Event.depth opened) es' := by
  induction es generalizing opened with
  | nil => rfl
  | cons e es ih =>
    rw [List.cons_append, List.foldl_cons]
    cases e with
    | entered l n =>
      cases opened with
      | zero => simp only [outermost, ih, Event.depth, Nat.zero_add, List.cons_append]
      | succ k => simp only [outermost, ih]
    | character l ch n => simp only [outermost, ih]
    | leaving l n x => simp only [outermost, ih]

theorem outermost_leavings (opened : Nat) (ls : List Label) (n : Nat) (x : Option Char) :
    outermost opened (ls.map fun l => .leaving l n x) = [] := by
  induction ls generalizing opened with
  | nil => rfl
  | cons l ls ih => simp only [List.map_cons, outermost, ih]

/-- An outermost state is entered. -/
theorem exists_entered_of_mem_outermost {l : Label} {k : Nat} {es : List Event}
    (h : l ∈ outermost k es) : ∃ m, .entered l m ∈ es := by
  induction es generalizing k with
  | nil => cases h
  | cons e es ih =>
    simp only [outermost] at h
    split at h
    · rename_i l' m
      rcases List.mem_cons.mp h with rfl | h
      · exact ⟨m, List.mem_cons_self⟩
      · obtain ⟨m', hm'⟩ := ih h
        exact ⟨m', List.mem_cons_of_mem _ hm'⟩
    · obtain ⟨m, hm⟩ := ih h
      exact ⟨m, List.mem_cons_of_mem e hm⟩

namespace Request

/-- The states that are open in a text, outermost first. -/
def textStacks : List (List Label) :=
  [[.node], [.node, .nodeName], [.propertyList, .property],
    [.propertyList, .property, .propertyValue]]

/-- The states that are open in a bracket literal. -/
def literalStacks : List (List Label) :=
  [[.propertyList, .property, .propertyValue, .brackets],
    [.propertyList, .property, .propertyValue, .braces],
    [.propertyList, .property, .propertyValue, .parens]]

/-- The states that are open between two characters of a line, outermost first. A text may have a
quoted literal, an escape or both on top. -/
def openStacks : List (List Label) :=
  textStacks ++ textStacks.map (· ++ [.escape]) ++ textStacks.map (· ++ [.quotes])
    ++ textStacks.map (· ++ [.quotes, .escape]) ++ literalStacks
    ++ [[.operationName], [.propertyList], [.requestEnd], [.outputRedirect],
      [.outputRedirect, .outputTarget]]

theorem length_of_mem_openStacks : ∀ ls ∈ openStacks, ls ≠ [] ∧ ls.length ≤ 5 := by
  decide

/-- The outermost states of a line, in the order in which they are opened. -/
def partOrder : Language Label :=
  {[.node]}∗ * (1 + {[.operationName]}) * (1 + {[.propertyList, .requestEnd]})
    * (1 + {[.outputRedirect]})

/-- The outermost states that may be opened after the outermost state `part`, if any. -/
def nextParts : Option Label → List Label
  | none | some .node => [.node, .operationName, .propertyList, .outputRedirect]
  | some .operationName => [.propertyList, .outputRedirect]
  | some .propertyList => [.requestEnd]
  | some .requestEnd => [.outputRedirect]
  | some _ => []

/-- The states that the events of a character can be about, if the outermost state before it is
`part`. -/
def near : Option Label → List Label
  | none =>
    [.initial, .node, .nodeName, .quotes, .escape, .operationName, .propertyList, .outputRedirect]
  | some .node =>
    [.node, .nodeName, .quotes, .escape, .operationName, .propertyList, .outputRedirect]
  | some .operationName => [.operationName, .propertyList, .outputRedirect]
  | some .propertyList =>
    [.propertyList, .property, .propertyValue, .quotes, .escape, .brackets, .braces, .parens,
      .requestEnd]
  | some .requestEnd => [.requestEnd, .outputRedirect]
  | some .outputRedirect => [.outputRedirect, .outputTarget]
  | some _ => []

/-- The states may be opened one after the other, as outermost ones, after `part`. -/
def Ordered : Option Label → List Label → Prop
  | _, [] => True
  | part, l :: ls => l ∈ nextParts part ∧ Ordered (some l) ls

section Order

variable {l : Label} {ls : List Label}

/-- What may be opened as outermost states after `part`, to the end of a line. -/
def partsAfter : Option Label → Language Label
  | none | some .node => partOrder
  | some .operationName => (1 + {[.propertyList, .requestEnd]}) * (1 + {[.outputRedirect]})
  | some .propertyList => {[.requestEnd]} * (1 + {[.outputRedirect]})
  | some .requestEnd => 1 + {[.outputRedirect]}
  | some _ => 1

theorem mem_one_add_mul {k m : Language Label} :
    ls ∈ (1 + k) * m ↔ ls ∈ m ∨ ls ∈ k * m := by
  rw [add_mul, one_mul, Language.mem_add]

theorem cons_mem_singleton_mul {m : Language Label} (h : ls ∈ m) : l :: ls ∈ {[l]} * m :=
  ⟨[l], rfl, ls, h, rfl⟩

theorem cons_mem_partsAfter_end (hl : l ∈ nextParts (some .requestEnd))
    (h : ls ∈ partsAfter (some l)) : l :: ls ∈ partsAfter (some .requestEnd) := by
  obtain rfl := List.mem_singleton.mp hl
  obtain rfl : ls = [] := h
  exact .inr rfl

theorem cons_mem_partsAfter_operation (hl : l ∈ nextParts (some .operationName))
    (h : ls ∈ partsAfter (some l)) : l :: ls ∈ partsAfter (some .operationName) := by
  simp only [nextParts, List.mem_cons, List.not_mem_nil, or_false] at hl
  rcases hl with rfl | rfl
  · obtain ⟨_, rfl, ls, hls, rfl⟩ := h
    exact mem_one_add_mul.mpr (.inr ⟨[.propertyList, .requestEnd], rfl, ls, hls, rfl⟩)
  · exact mem_one_add_mul.mpr (.inl (cons_mem_partsAfter_end (by decide) h))

theorem cons_mem_partOrder (hl : l ∈ nextParts none) (h : ls ∈ partsAfter (some l)) :
    l :: ls ∈ partOrder := by
  have horder : partOrder
      = {[.node]}∗ * ((1 + {[.operationName]}) * partsAfter (some .operationName)) := by
    simp only [partOrder, partsAfter, mul_assoc]
  rw [horder, Grammar.mem_kstar_mul, ← horder]
  simp only [nextParts, List.mem_cons, List.not_mem_nil, or_false] at hl
  rcases hl with rfl | rfl | rfl | rfl
  · exact .inr (cons_mem_singleton_mul h)
  · exact .inl (mem_one_add_mul.mpr (.inr (cons_mem_singleton_mul h)))
  · exact .inl (mem_one_add_mul.mpr (.inl (cons_mem_partsAfter_operation (by decide) h)))
  · exact .inl (mem_one_add_mul.mpr (.inl (cons_mem_partsAfter_operation (by decide) h)))

theorem cons_mem_partsAfter : ∀ {part : Option Label}, l ∈ nextParts part →
    ls ∈ partsAfter (some l) → l :: ls ∈ partsAfter part
  | none, hl, h => cons_mem_partOrder hl h
  | some .node, hl, h => cons_mem_partOrder hl h
  | some .operationName, hl, h => cons_mem_partsAfter_operation hl h
  | some .propertyList, hl, h => by
    obtain rfl := List.mem_singleton.mp hl
    exact cons_mem_singleton_mul h
  | some .requestEnd, hl, h => cons_mem_partsAfter_end hl h

theorem partsAfter_nonempty (part : Option Label) : ∃ word, word ∈ partsAfter part := by
  have hend : [] ∈ partsAfter (some .requestEnd) := .inl rfl
  have hoperation : [] ∈ partsAfter (some .operationName) := mem_one_add_mul.mpr (.inl hend)
  have horder : [.operationName] ∈ partOrder := cons_mem_partOrder (by decide) hoperation
  rcases part with _ | l
  · exact ⟨_, horder⟩
  cases l
  case node => exact ⟨_, horder⟩
  case operationName => exact ⟨_, hoperation⟩
  case propertyList => exact ⟨[.requestEnd], cons_mem_singleton_mul hend⟩
  case requestEnd => exact ⟨_, hend⟩
  all_goals exact ⟨[], rfl⟩

/-- States that are opened in order are the beginning of a line's parts. -/
theorem exists_prefix_of_ordered : ∀ {part : Option Label} {ls : List Label}, Ordered part ls →
    ∃ word ∈ partsAfter part, ls <+: word
  | part, [], _ => by
    obtain ⟨word, hword⟩ := partsAfter_nonempty part
    exact ⟨word, hword, List.nil_prefix⟩
  | part, l :: ls, ⟨hl, h⟩ => by
    obtain ⟨word, hword, hls⟩ := exists_prefix_of_ordered h
    exact ⟨l :: word, cons_mem_partsAfter hl hword, List.cons_prefix_cons.mpr ⟨rfl, hls⟩⟩

end Order

end Request

namespace Place

/-- The outermost open state. -/
def outer (p : Place) : Option Label :=
  p.labels.getLast?

/-- The move keeps the outermost state, or opens one that may come next. -/
inductive Orderly (p : Place) : Move → Prop
  | stays {es : List Event} {q : Place}
    (hdepth : es.foldl Event.depth p.labels.length = q.labels.length)
    (hpart : q.outer = p.outer) (hout : outermost p.labels.length es = []) : Orderly p (es, .ok q)
  | opens {es : List Event} {q : Place} (part : Option Label) (l : Label) (hp : p.outer = part)
    (hl : l ∈ Request.nextParts part)
    (hdepth : es.foldl Event.depth p.labels.length = q.labels.length) (hpart : q.outer = some l)
    (hout : outermost p.labels.length es = [l]) : Orderly p (es, .ok q)
  | fails {es : List Event} {e : ParseError}
    (hout : Request.Ordered p.outer (outermost p.labels.length es)) : Orderly p (es, .error e)

variable {o : Options} {n : Nat} {ch : Char} {p q : Place} {es : List Event}

theorem Orderly.after {r : Place} {x : Event} {move : Move} (h : Orderly r move)
    (hdepth : x.depth p.labels.length = r.labels.length) (hpart : r.outer = p.outer)
    (hout : outermost p.labels.length [x] = []) : Orderly p (after [x] move) := by
  have happ : ∀ es, outermost p.labels.length ([x] ++ es) = outermost r.labels.length es := by
    intro es
    rw [outermost_append, hout, List.nil_append, List.foldl_cons, List.foldl_nil, hdepth]
  have hfold : ∀ es : List Event, ([x] ++ es).foldl Event.depth p.labels.length
      = es.foldl Event.depth r.labels.length := by
    intro es
    rw [List.foldl_append, List.foldl_cons, List.foldl_nil, hdepth]
  cases h with
  | stays hd hp ho => exact .stays (by rw [hfold, hd]) (hp.trans hpart) (by rw [happ, ho])
  | opens part l hr hl hd hp ho =>
    exact .opens part l (hpart.symm.trans hr) hl (by rw [hfold, hd]) hp (by rw [happ, ho])
  | fails ho => exact .fails (by rw [happ, ← hpart]; exact ho)

/-- A state that is opened for a character which opens no other outermost one. -/
theorem Orderly.opening {r : Place} {l : Label} {move : Move} (h : Orderly r move)
    (hp : p.labels = []) (hr : r.labels = [l]) (hl : l ∈ Request.nextParts none)
    (hout : outermost 1 move.1 = []) : Orderly p (Place.after [.entered l n] move) := by
  have hpo : p.outer = none := by simp only [outer, hp, List.getLast?_nil]
  have hro : r.outer = some l := by simp only [outer, hr, List.getLast?_singleton]
  have hrlen : r.labels.length = 1 := by rw [hr, List.length_singleton]
  have happ : ∀ es, outermost 1 es = [] →
      outermost p.labels.length ([Event.entered l n] ++ es) = [l] := by
    intro es hes
    rw [hp, List.length_nil, List.singleton_append, outermost, hes]
  cases h with
  | stays hd hpart ho =>
    rw [hrlen] at hd
    exact .opens none l hpo hl (by rw [hp]; exact hd) (hpart.trans hro) (happ _ hout)
  | opens _ _ hr' hl' hd hpart ho =>
    rw [hrlen] at ho
    rw [ho] at hout
    cases hout
  | fails ho => exact .fails (by rw [hpo, happ _ hout]; exact ⟨hl, trivial⟩)

theorem orderly_endSegment {f : Opening} : Orderly (.text (.node f) .none) (endSegment n ch) := by
  unfold endSegment
  repeat' split
  · exact .opens (some .node) .node rfl (by decide) rfl rfl rfl
  · exact .opens (some .node) .operationName rfl (by decide) rfl rfl rfl
  · exact .opens (some .node) .propertyList rfl (by decide) rfl rfl rfl
  · exact .opens (some .node) .outputRedirect rfl (by decide) rfl rfl rfl

theorem orderly_endList {f : Opening} : Orderly (.list f) (endList n ch) :=
  .opens (some .propertyList) .requestEnd rfl (by decide) rfl rfl rfl

theorem orderly_endProperty {f g : Opening} :
    Orderly (.text (.property f g) .none) (endProperty n ch f) := by
  unfold endProperty
  split
  · exact .stays rfl rfl rfl
  · exact orderly_endList.after rfl rfl rfl

theorem orderly_onMark {w : Owner} : Orderly (.text w .none) (onMark n ch w) := by
  cases w with
  | node f =>
    simp only [onMark]
    split
    · exact .stays rfl rfl rfl
    split
    · exact .fails trivial
    · exact orderly_endSegment
  | nodeName f g =>
    simp only [onMark]
    split
    · exact .fails trivial
    split
    · exact .fails trivial
    · exact (orderly_endSegment (f := f)).after rfl rfl rfl
  | property f g =>
    simp only [onMark]
    split
    · exact .stays rfl rfl rfl
    · exact orderly_endProperty
  | propertyValue f g v =>
    simp only [onMark]
    split
    · exact .stays rfl rfl rfl
    · exact (orderly_endProperty (g := g)).after rfl rfl rfl

/-- A character of a text that is no mark stays in the text. -/
theorem orderly_onText_of_notMem {w : Owner} (h : ch ∉ w.marks) :
    Orderly (.text w .none) (onText o n ch w) := by
  unfold onText
  split
  · exact .stays rfl rfl rfl
  split
  · exact .stays (by cases w <;> rfl) (by cases w <;> rfl) (by cases w <;> rfl)
  split
  · exact .stays (by cases w <;> rfl) (by cases w <;> rfl) (by cases w <;> rfl)
  · exact .stays (by cases w <;> rfl) (by cases w <;> rfl) (by cases w <;> rfl)

theorem outermost_onText_node {f : Opening} (h : ch ∉ ['/', ':', '(', '>']) :
    outermost 1 (onText o n ch (.node f)).1 = [] := by
  by_cases hm : ch ∈ (Owner.node f).marks
  · have hmark : ch = '=' ∨ ch = ')' := by
      simp only [Owner.marks, List.mem_cons, List.not_mem_nil, or_false] at h hm
      grind
    rw [onText_of_mark hm]
    rcases hmark with rfl | rfl <;> rfl
  · unfold onText
    repeat' split
    all_goals rfl

theorem orderly_onText {w : Owner} : Orderly (.text w .none) (onText o n ch w) := by
  by_cases h : ch ∈ w.marks
  · rw [onText_of_mark h]
    exact orderly_onMark
  · exact orderly_onText_of_notMem h

/-- A character changes the outermost state only as the order of the parts allows. -/
theorem orderly_next : Orderly p (p.next o n ch) := by
  cases p with
  | start =>
    simp only [next]
    repeat' split
    · exact .stays rfl rfl rfl
    · exact .opens none .node rfl (by decide) rfl rfl rfl
    · exact .opens none .operationName rfl (by decide) rfl rfl rfl
    · exact .opens none .propertyList rfl (by decide) rfl rfl rfl
    · exact .opens none .outputRedirect rfl (by decide) rfl rfl rfl
    · rename_i h₁ h₂ h₃ h₄
      refine (orderly_onText (w := .node { offset := n, opener := ch })).opening (l := .node) rfl
        rfl (by decide) (outermost_onText_node ?_)
      simp [h₁, h₂, h₃, h₄]
  | text w s =>
    cases s with
    | none => exact orderly_onText
    | escape e => exact .stays (by cases w <;> rfl) (by cases w <;> rfl) (by cases w <;> rfl)
    | quotes x =>
      simp only [next, onQuoted]
      repeat' split
      all_goals exact .stays (by cases w <;> rfl) (by cases w <;> rfl) (by cases w <;> rfl)
    | quotesEscape x e =>
      exact .stays (by cases w <;> rfl) (by cases w <;> rfl) (by cases w <;> rfl)
  | literal f g v b x depth =>
    simp only [next, onLiteral]
    repeat' split
    all_goals exact .stays rfl rfl rfl
  | operation f =>
    simp only [next, onOperation, endOperation]
    repeat' split
    · exact .stays rfl rfl rfl
    · exact .fails trivial
    · exact .opens (some .operationName) .propertyList rfl (by decide) rfl rfl rfl
    · exact .fails trivial
    · exact .opens (some .operationName) .outputRedirect rfl (by decide) rfl rfl rfl
    · exact .fails trivial
    · exact .stays rfl rfl rfl
  | list f =>
    simp only [next]
    split
    · exact .stays rfl rfl rfl
    split
    · exact orderly_endList
    · exact (orderly_onText (w := .property f { offset := n, opener := ch })).after rfl rfl rfl
  | requestEnd f =>
    simp only [next]
    split
    · exact .stays rfl rfl rfl
    split
    · exact .opens (some .requestEnd) .outputRedirect rfl (by decide) rfl rfl rfl
    · exact .fails trivial
  | redirect f =>
    simp only [next, onTarget]
    repeat' split
    · exact .stays rfl rfl rfl
    · exact .fails trivial
    · exact .stays rfl rfl rfl
    · exact .stays rfl rfl rfl
  | target f g =>
    simp only [next, onTarget]
    split
    · exact .stays rfl rfl rfl
    · exact .stays rfl rfl rfl

theorem ordered_feed (cs : List Char) :
    Request.Ordered p.outer (outermost p.labels.length (p.feed o n cs).1) := by
  induction cs generalizing n p with
  | nil => trivial
  | cons ch cs ih =>
    have hnext : Orderly p (p.next o n ch) := orderly_next
    simp only [feed]
    generalize p.next o n ch = move at hnext
    cases hnext with
    | stays hdepth hpart hout =>
      simp only [after, outermost_append, hout, hdepth, List.nil_append]
      rw [← hpart]
      exact ih
    | opens part l hp hl hdepth hpart hout =>
      simp only [after, outermost_append, hout, hdepth, List.singleton_append]
      rw [hp]
      exact ⟨hl, hpart ▸ ih⟩
    | fails hout => exact hout

/-- The end of the line leaves states and does nothing else. -/
theorem finish_leavings (p : Place) : ∃ ls : List Label,
    (p.finish o n).1 = ls.map fun l => .leaving l n none := by
  cases p with
  | start => exact ⟨[], rfl⟩
  | text w s =>
    cases s with
    | none =>
      cases w with
      | node f => exact ⟨[.node], rfl⟩
      | nodeName f g => exact ⟨[.nodeName, .node], rfl⟩
      | property f g => exact ⟨_, rfl⟩
      | propertyValue f g v => exact ⟨_, rfl⟩
    | escape e => exact ⟨[], rfl⟩
    | quotes x => exact ⟨[], rfl⟩
    | quotesEscape x e => exact ⟨[], rfl⟩
  | literal f g v b x depth =>
    simp only [finish]
    split
    · exact ⟨_, rfl⟩
    · exact ⟨[], rfl⟩
  | operation f => exact ⟨[.operationName], rfl⟩
  | list f => exact ⟨[], rfl⟩
  | requestEnd f => exact ⟨[.requestEnd], rfl⟩
  | redirect f => exact ⟨[], rfl⟩
  | target f g =>
    simp only [finish]
    split
    · exact ⟨[], rfl⟩
    · exact ⟨[.outputTarget, .outputRedirect], rfl⟩

/-- The outermost states are opened in order, to the end of the line. -/
theorem ordered_read (cs : List Char) :
    Request.Ordered p.outer (outermost p.labels.length (p.read o n cs).1) := by
  have hfeed := ordered_feed (o := o) (n := n) (p := p) cs
  rw [read]
  rcases hx : p.feed o n cs with ⟨es, e | q⟩ <;> rw [hx] at hfeed
  · exact hfeed
  · obtain ⟨ls, hls⟩ := finish_leavings (o := o) (n := n + Text.byteSize cs) q
    simp only [delay, hls, outermost_append, outermost_leavings, List.append_nil]
    exact hfeed

theorem mem_openStacks (hp : p ≠ .start) : p.labels.reverse ∈ Request.openStacks := by
  cases p with
  | start => exact absurd rfl hp
  | text w s => cases w <;> cases s <;> exact List.mem_of_elem_eq_true rfl
  | literal f g v b x depth => cases b <;> exact List.mem_of_elem_eq_true rfl
  | operation f => exact List.mem_of_elem_eq_true rfl
  | list f => exact List.mem_of_elem_eq_true rfl
  | requestEnd f => exact List.mem_of_elem_eq_true rfl
  | redirect f => exact List.mem_of_elem_eq_true rfl
  | target f g => exact List.mem_of_elem_eq_true rfl

theorem depth_of_mem_stack {x : Frame Label} (hx : x ∈ p.stack) (hd : x.depth ≠ 0) :
    x.state ∈ [.brackets, .braces, .parens] := by
  have hframe : ∀ (f : Opening) (l : Label), x ≠ f.frame l := by
    rintro f l rfl
    exact hd rfl
  have howner : ∀ w : Owner, x ∉ w.stack := by
    intro w
    cases w <;> simp [Owner.stack, hframe]
  cases p with
  | start => simp [stack] at hx
  | text w s =>
    have hshelter : x ∉ s.stack := by cases s <;> simp [Shelter.stack, hframe]
    exact absurd hx (by simp [stack, hshelter, howner])
  | literal f g v b y depth =>
    rcases List.mem_cons.mp hx with rfl | hw
    · cases b <;> exact List.mem_of_elem_eq_true rfl
    · exact absurd hw (howner _)
  | operation f => simp [stack, hframe] at hx
  | list f => simp [stack, hframe] at hx
  | requestEnd f => simp [stack, hframe] at hx
  | redirect f => simp [stack, hframe] at hx
  | target f g => simp [stack, hframe] at hx

theorem outer_eq_none_iff : p.outer = none ↔ p = .start := by
  refine ⟨fun h => ?_, fun h => h ▸ rfl⟩
  by_contra hp
  have hmem := mem_openStacks hp
  rw [outer, List.getLast?_eq_none_iff] at h
  rw [h] at hmem
  exact (Request.length_of_mem_openStacks _ hmem).1 rfl

theorem Orderly.ne_start (h : Orderly p (es, .ok q)) (hp : p ≠ .start) : q ≠ .start := by
  rw [Ne, ← outer_eq_none_iff] at hp ⊢
  cases h with
  | stays _ hpart _ => rwa [hpart]
  | opens _ _ _ _ _ hpart _ => simp [hpart]

theorem ne_start_of_feed {cs : List Char} (h : p.feed o n cs = (es, .ok q)) (hp : p ≠ .start) :
    q ≠ .start := by
  refine feed_invariant (fun _ _ p => p ≠ .start) n (fun hp hnext => ?_) [] [] hp h
  exact (hnext ▸ orderly_next : Orderly _ (_, .ok _)).ne_start hp

/-- A character that is not blank leaves the start. -/
theorem ne_start_of_next_start (h : next o n ch .start = (es, .ok q)) (hch : o.isBlank ch = false) :
    q ≠ .start := by
  simp only [next, hch, Bool.false_eq_true, if_false] at h
  repeat' split at h
  · cases h
    simp
  · cases h
    simp
  · cases h
    simp
  · cases h
    simp
  · have hq : Orderly (.text (.node { offset := n, opener := ch }) .none)
        ((onText o n ch (.node { offset := n, opener := ch })).1, .ok q) :=
      (Prod.mk.inj h).2 ▸ orderly_onText
    exact hq.ne_start (by simp)

theorem ne_start_of_feed_cons {cs : List Char} (h : feed o n (ch :: cs) .start = (es, .ok q))
    (hch : o.isBlank ch = false) : q ≠ .start := by
  simp only [feed] at h
  split at h
  · cases h
  · rename_i es₁ q₁ hnext
    exact ne_start_of_feed (Prod.ext rfl (Prod.mk.inj h).2) (ne_start_of_next_start hnext hch)

/-- The events are about states that are near the outermost state `part`. -/
def Within (part : Option Label) (es : List Event) : Prop :=
  es.all (fun e => e.state ∈ Request.near part) = true

theorem Within.after {part : Option Label} {e : Event} {move : Move} (h : Within part move.1)
    (he : Within part [e]) : Within part (after [e] move).1 := by
  simp only [Within, Place.after, List.all_append] at h he ⊢
  rw [h, he, Bool.and_true]

theorem Within.mono {part part' : Option Label} (h : Within part es)
    (hpart : Request.near part ⊆ Request.near part') : Within part' es :=
  List.all_eq_true.mpr fun e he =>
    decide_eq_true (hpart (of_decide_eq_true (List.all_eq_true.mp h e he)))

theorem Within.state_ne {part : Option Label} {l : Label} {e : Event} (h : Within part es)
    (hl : l ∉ Request.near part) (he : e ∈ es) : e.state ≠ l := by
  rintro rfl
  exact hl (of_decide_eq_true (List.all_eq_true.mp h e he))

theorem within_endSegment : Within (some .node) (endSegment n ch).1 := by
  unfold endSegment
  repeat' split
  all_goals rfl

theorem within_endProperty {f : Opening} : Within (some .propertyList) (endProperty n ch f).1 := by
  unfold endProperty
  split <;> rfl

theorem within_onMark {w : Owner} : Within (Place.text w .none).outer (onMark n ch w).1 := by
  cases w with
  | node f =>
    simp only [onMark]
    repeat' split
    · rfl
    · rfl
    · exact within_endSegment
  | nodeName f g =>
    simp only [onMark]
    repeat' split
    · rfl
    · rfl
    · exact within_endSegment.after rfl
  | property f g =>
    simp only [onMark]
    split
    · rfl
    · exact within_endProperty
  | propertyValue f g v =>
    simp only [onMark]
    split
    · rename_i b hb
      cases b <;> rfl
    · exact within_endProperty.after rfl

theorem within_onText {w : Owner} : Within (Place.text w .none).outer (onText o n ch w).1 := by
  unfold onText
  repeat' split
  · rfl
  · cases w <;> rfl
  · cases w <;> rfl
  · exact within_onMark
  · cases w <;> rfl

theorem within_onTarget {f g : Opening} :
    Within (some .outputRedirect) (onTarget o n ch f g).1 := by
  unfold onTarget
  split <;> rfl

/-- The first character of a relative address is read like one of a node. -/
theorem within_next_start (hch : ch ≠ '/') : Within (some .node) (next o n ch .start).1 := by
  simp only [next, if_neg hch]
  repeat' split
  · rfl
  · rfl
  · rfl
  · rfl
  · exact (within_onText (w := .node _)).after rfl

theorem within_next : Within p.outer (p.next o n ch).1 := by
  cases p with
  | start =>
    by_cases hch : ch = '/'
    · simp only [next, if_pos hch]
      split <;> rfl
    · exact (within_next_start hch).mono (by decide)
  | text w s =>
    cases s with
    | none => exact within_onText
    | escape e => cases w <;> rfl
    | quotes x =>
      simp only [next, onQuoted]
      repeat' split
      all_goals cases w <;> rfl
    | quotesEscape x e => cases w <;> rfl
  | literal f g v b x depth =>
    simp only [next, onLiteral]
    repeat' split
    all_goals cases b <;> rfl
  | operation f =>
    simp only [next, onOperation, endOperation]
    repeat' split
    all_goals rfl
  | list f =>
    simp only [next]
    repeat' split
    · rfl
    · rfl
    · exact (within_onText (w := .property f _)).after rfl
  | requestEnd f =>
    simp only [next]
    repeat' split
    all_goals rfl
  | redirect f =>
    simp only [next]
    repeat' split
    · rfl
    · rfl
    · exact within_onTarget.after rfl
  | target f g => exact within_onTarget

theorem within_finish (p : Place) : Within p.outer (p.finish o n).1 := by
  cases p with
  | text w s => cases w <;> cases s <;> rfl
  | literal f g v b x depth =>
    simp only [finish]
    split <;> cases b <;> rfl
  | target f g =>
    simp only [finish]
    split <;> rfl
  | _ => rfl

theorem Orderly.outer_mem {parts : List Label} (h : Orderly p (es, .ok q))
    (hnext : ∀ part ∈ parts, ∀ l ∈ Request.nextParts (some part), l ∈ parts)
    (hp : ∃ part ∈ parts, p.outer = some part) : ∃ part ∈ parts, q.outer = some part := by
  obtain ⟨part, hmem, hpart⟩ := hp
  cases h with
  | stays _ hq _ => exact ⟨part, hmem, hq.trans hpart⟩
  | opens _ l hp hl _ hq _ =>
    obtain rfl := hpart.symm.trans hp
    exact ⟨_, hnext part hmem _ hl, hq⟩

/-- A state that is near none of the parts which are to come has no more events. -/
theorem state_ne_of_mem_read {parts : List Label} {l : Label}
    (hnext : ∀ part ∈ parts, ∀ x ∈ Request.nextParts (some part), x ∈ parts)
    (hl : ∀ part ∈ parts, l ∉ Request.near (some part)) (cs : List Char)
    (hp : ∃ part ∈ parts, p.outer = some part) : ∀ e ∈ (p.read o n cs).1, e.state ≠ l := by
  induction cs generalizing n p with
  | nil =>
    obtain ⟨part, hmem, hpart⟩ := hp
    intro e he
    have hwithin : Within (some part) (p.finish o n).1 := hpart ▸ within_finish p
    exact hwithin.state_ne (hl part hmem) (by simpa [read, feed, delay] using he)
  | cons ch cs ih =>
    obtain ⟨part, hmem, hpart⟩ := hp
    have hwithin : Within (some part) (p.next o n ch).1 := hpart ▸ within_next
    rcases hx : p.next o n ch with ⟨es, x | q⟩ <;> rw [hx] at hwithin
    · rw [read_cons_of_error hx]
      exact fun e he => hwithin.state_ne (hl part hmem) he
    · have hq : Orderly p (es, .ok q) := hx ▸ orderly_next
      rw [read_cons hx]
      intro e he
      rcases List.mem_append.mp he with he | he
      · exact hwithin.state_ne (hl part hmem) he
      · exact ih (hq.outer_mem hnext ⟨part, hmem, hpart⟩) e he

/-- The outermost states. -/
def parts : List Label :=
  [.node, .operationName, .propertyList, .requestEnd, .outputRedirect]

theorem exists_outer_of_ne_start (hp : p ≠ .start) : ∃ part ∈ parts, p.outer = some part := by
  cases p with
  | start => exact absurd rfl hp
  | text w s => cases w <;> cases s <;> exact ⟨_, List.mem_of_elem_eq_true rfl, rfl⟩
  | literal f g v b x depth => cases b <;> exact ⟨_, List.mem_of_elem_eq_true rfl, rfl⟩
  | _ => exact ⟨_, List.mem_of_elem_eq_true rfl, rfl⟩

/-- After the start no character is passed on outside of all states. -/
theorem not_isRoot_of_mem_read (hp : p ≠ .start) {cs : List Char} {e : Event}
    (he : e ∈ (p.read o n cs).1) : e.isRoot = false := by
  have hstate := state_ne_of_mem_read (l := .initial) (by decide) (by decide) cs
    (exists_outer_of_ne_start hp) e he
  cases e with
  | character l ch n => cases l <;> first | rfl | exact absurd rfl hstate
  | _ => rfl

/-- What a line passes on outside of all states is a slash that it begins with. -/
theorem mem_read_start_iff (hch : o.isBlank ch = false) (cs : List Char) {e : Event}
    (he : e.isRoot = true) :
    e ∈ (read o n (ch :: cs) .start).1 ↔ ch = '/' ∧ e = .character .initial '/' n := by
  have hrest : ∀ {m q}, q ≠ .start → e ∉ (read o m cs q).1 := by
    intro m q hq hmem
    rw [not_isRoot_of_mem_read hq hmem] at he
    cases he
  by_cases hslash : ch = '/'
  · subst hslash
    have hnext : next o n '/' .start = ([.character .initial '/' n, .entered .node n],
        .ok (.text (.node { offset := n, opener := '/' }) .none)) := by
      simp only [next, hch, Bool.false_eq_true, if_false, if_true]
    have hnode : e ≠ .entered .node n := by
      rintro rfl
      cases he
    rw [read_cons hnext]
    simp [delay, hrest, hnode]
  · have hstate : e.state = .initial := by
      cases e with
      | character l ch n => cases l <;> first | rfl | cases he
      | _ => cases he
    have hwithin := within_next_start (o := o) (n := n) hslash
    have hnext : ∀ {es}, (next o n ch .start).1 = es → e ∉ es := fun h hmem =>
      (h ▸ hwithin).state_ne (by decide) hmem hstate
    rcases hx : next o n ch .start with ⟨es, x | q⟩
    · rw [read_cons_of_error hx]
      simp [hnext (congrArg Prod.fst hx), hslash]
    · rw [read_cons hx]
      simp [delay, hnext (congrArg Prod.fst hx), hrest (ne_start_of_next_start hx hch), hslash]

end Place

theorem Options.isBlank_of_dropWhile (o : Options) {xs ys : List Char} {ch : Char}
    (h : xs.dropWhile o.isBlank = ch :: ys) : o.isBlank ch = false := by
  have hhead := List.head?_dropWhile_not o.isBlank xs
  rw [h] at hhead
  simpa using hhead

theorem Collector.take_request (c : Collector) (l : Label) (ch : Char) :
    (c.take l ch).request
      = if l = .initial then { c.request with absolute := true } else c.request := by
  have hseen : (c.seen ch).request = c.request := by
    unfold seen
    split <;> rfl
  have hgive : ∀ (d : Collector) (owner : Label) (keep : Bool),
      (d.give owner ch keep).request = d.request := by
    intro d owner keep
    cases owner <;> rfl
  rw [take_eq]
  split
  · rw [hseen]
  · split
    · exact hseen
    · rw [hgive, hseen]

theorem Collector.take_absolute (c : Collector) (l : Label) (ch : Char) :
    (c.take l ch).request.absolute = (c.request.absolute || decide (l = .initial)) := by
  rw [take_request]
  split <;> simp_all

theorem Collector.leave_absolute (c : Collector) (l : Label) (x : Option Char) :
    (c.leave l x).request.absolute = c.request.absolute := by
  cases l
  case node => rw [leave_node]; split <;> rfl
  case operationName => rw [leave_operationName]; split <;> rfl
  case property => rw [leave_property]; split <;> rfl
  all_goals rfl

theorem Collector.step_absolute (c : Collector) (e : Event) :
    (c.step e).request.absolute = (c.request.absolute || e.isRoot) := by
  cases e with
  | entered l n =>
    change (c.enter l n).request.absolute = _
    cases l <;> simp [enter, Event.isRoot]
  | character l ch n =>
    have hroot : (Event.character l ch n).isRoot = decide (l = .initial) := by cases l <;> rfl
    rw [hroot]
    exact c.take_absolute l ch
  | leaving l n x => exact (c.leave_absolute l x).trans (Bool.or_false _).symm

theorem Collector.foldl_step_absolute (c : Collector) (es : List Event) :
    (es.foldl step c).request.absolute = (c.request.absolute || es.any Event.isRoot) := by
  induction es generalizing c with
  | nil => simp
  | cons e es ih => rw [List.foldl_cons, ih, step_absolute, List.any_cons, Bool.or_assoc]

namespace Request

theorem mem_record_iff (o : Options) (line : String) {e : Event} (he : e.isRoot = true) :
    e ∈ (Request.run o Sink.record line #[]).consumer.toList ↔
      (line.toList.dropWhile o.isBlank).head? = some '/'
        ∧ e = .character .initial '/' (Text.byteSize (line.toList.takeWhile o.isBlank)) := by
  have hread := Place.read_of_blanks o (List.all_takeWhile (p := o.isBlank) (l := line.toList)) 0
    (line.toList.dropWhile o.isBlank)
  rw [List.takeWhile_append_dropWhile, Nat.zero_add] at hread
  rw [(Request.run_record o line).1, hread]
  rcases hcs : line.toList.dropWhile o.isBlank with _ | ⟨ch, cs⟩
  · simp [Place.read, Place.feed, Place.delay, Place.finish]
  · have hch := o.isBlank_of_dropWhile hcs
    rw [Place.mem_read_start_iff hch cs he, List.head?_cons, Option.some.injEq]

/-- The outermost states of a recorded line are opened in order. -/
theorem ordered_record (o : Options) (line : String) :
    Ordered none (outermost 0 (Request.run o Sink.record line #[]).consumer.toList) := by
  rw [(Request.run_record o line).1]
  exact Place.ordered_read (p := .start) line.toList

theorem Ordered.of_prefix : ∀ {part : Option Label} {ls ls' : List Label}, Ordered part ls' →
    ls <+: ls' → Ordered part ls
  | _, [], _, _, _ => trivial
  | _, l :: ls, [], _, h => absurd h (by simp)
  | _, l :: ls, l' :: ls', ⟨hl, hls⟩, h => by
    obtain ⟨rfl, htail⟩ := List.cons_prefix_cons.mp h
    exact ⟨hl, hls.of_prefix htail⟩

/-- Within the bound of the grammar a run with any sink comes to the place that the characters lead
to, or it fails. -/
theorem feed_cases (o : Options) (S : Sink σ) (n : Nat) (cs : List Char) (s : σ) :
    (∃ es p c, Place.feed o n cs .start = (es, .ok p)
      ∧ (Request.machine o S).feed Request.bound n cs { consumer := s } = .ok () c
      ∧ c.stack = p.stack ∧ c.handedBack = false)
    ∨ ∃ e c, (Request.machine o S).feed Request.bound n cs { consumer := s }
      = .error (.failed e) c := by
  have hstart : Place.At .start [] ({ consumer := #[] } : Place.Conf) := ⟨rfl, rfl, rfl⟩
  have hfollows := Place.feed_follows (o := o) hstart n cs
  obtain ⟨offers, -, -, hS⟩ := Machine.feed_mirroring (m := Request.machine o Sink.ignore)
    Request.bound n cs { consumer := #[] }
  rcases hS σ S s with ⟨s', -, hx⟩ | ⟨taken, x, rest, s₁, reason, s₂, -, -, -, hx⟩
  · replace hx : (Request.machine o S).feed Request.bound n cs { consumer := s }
      = Run.handed ((Place.machine o).feed Request.bound n cs { consumer := #[] }) s' := hx
    rw [hx]
    generalize (Place.machine o).feed Request.bound n cs { consumer := #[] } = r at hfollows
    generalize Place.feed o n cs .start = move at hfollows
    cases hfollows with
    | moved hat => exact .inl ⟨_, _, _, rfl, rfl, hat.stack, hat.handedBack⟩
    | failed _ => exact .inr ⟨_, _, rfl⟩
  · exact .inr ⟨_, _, hx⟩

theorem place_of_feed (o : Options) (S : Sink σ) {b n : Nat} {cs : List Char} {s : σ}
    {c : Config Label σ} (h : (Request.machine o S).feed b n cs { consumer := s } = .ok () c) :
    ∃ es p, Place.feed o n cs .start = (es, .ok p) ∧ c.stack = p.stack ∧ c.handedBack = false := by
  have hcases := feed_cases o S n cs s
  have hbound : (Request.machine o S).feed Request.bound n cs { consumer := s } = .ok () c := by
    rcases Nat.le_total b Request.bound with hle | hle
    · obtain ⟨d, hd⟩ := Nat.exists_eq_add_of_le hle
      rcases (Request.machine o S).feed_prolongs b d n cs { consumer := s } with ⟨c', hc'⟩ | heq
      · rw [h] at hc'
        cases hc'
      · rw [hd, heq, h]
    · obtain ⟨d, rfl⟩ := Nat.exists_eq_add_of_le hle
      rcases (Request.machine o S).feed_prolongs Request.bound d n cs { consumer := s } with
        ⟨c', hc'⟩ | heq
      · rw [hc'] at hcases
        rcases hcases with ⟨_, _, _, _, hok, _⟩ | ⟨_, _, hfail⟩
        · cases hok
        · cases hfail
      · rw [← heq, h]
  rw [hbound] at hcases
  rcases hcases with ⟨es, p, c', hfeed, hok, hstack, hback⟩ | ⟨e, c', hfail⟩
  · cases hok
    exact ⟨es, p, hfeed, hstack, hback⟩
  · cases hfail

end Request

/-- Between two characters of a line, whatever takes its events, the open states form one of the
stacks of `Request.openStacks`, so some state and at most five states are open; no character is
handed back, and only bracket literals count nested openers. Of the events, a character outside of
all states can only be a slash that the line begins with, so the line is absolute exactly then, and
the outermost states are opened in the order of `Request.partOrder`. -/
theorem reachable_stacks_and_part_order (o : Options) (S : Sink σ) (line : String) (s : σ) :
    (∀ (bound : Nat) (cs : List Char) (c : Config Label σ), cs ≠ [] →
      cs <+: line.toList.dropWhile o.isBlank →
      (Request.machine o S).feed bound (Text.byteSize (line.toList.takeWhile o.isBlank)) cs
        { consumer := s } = .ok () c →
      (c.stack.map Frame.state).reverse ∈ Request.openStacks
        ∧ c.stack ≠ [] ∧ c.stack.length ≤ 5 ∧ c.handedBack = false
        ∧ ∀ f ∈ c.stack, f.depth ≠ 0 → f.state ∈ [.brackets, .braces, .parens])
    ∧ (∃ offered : List Event,
      Request.run o (Sink.both Sink.record S) line (#[], s)
          = (Request.run o S line s).hand (offered.toArray, (Request.run o S line s).consumer)
        ∧ (∀ ch n, .character .initial ch n ∈ offered → ch = '/'
          ∧ n = Text.byteSize (line.toList.takeWhile o.isBlank)
          ∧ (line.toList.dropWhile o.isBlank).head? = some '/')
        ∧ ∃ word ∈ Request.partOrder, outermost 0 offered <+: word)
    ∧ ((Collector.read o line { options := o }).consumer.request.absolute = true ↔
      (line.toList.dropWhile o.isBlank).head? = some '/') := by
  refine ⟨fun bound cs c hne hcs hfeed => ?_, ?_, ?_⟩
  · obtain ⟨es, p, hplace, hstack, hback⟩ := Request.place_of_feed o S hfeed
    have hp : p ≠ .start := by
      obtain ⟨ch, cs, rfl⟩ := List.exists_cons_of_ne_nil hne
      obtain ⟨rest, hrest⟩ := hcs
      exact Place.ne_start_of_feed_cons hplace (o.isBlank_of_dropWhile hrest.symm)
    have hmem := Place.mem_openStacks hp
    obtain ⟨hne, hlen⟩ := Request.length_of_mem_openStacks _ hmem
    rw [hstack]
    refine ⟨hmem, ?_, ?_, hback, fun f hf hd => Place.depth_of_mem_stack hf hd⟩
    · simpa [Place.labels] using hne
    · simpa [Place.labels] using hlen
  · obtain ⟨offered, htee, ⟨rest, hrest⟩, -⟩ :=
      (Request.machine o S).run_both_record Request.bound line s
    replace hrest : offered ++ rest = (Request.run o Sink.record line #[]).consumer.toList := hrest
    refine ⟨offered, htee, fun ch n hmem => ?_, ?_⟩
    · have hrecorded := hrest ▸ List.mem_append_left rest hmem
      obtain ⟨hhead, he⟩ := (Request.mem_record_iff o line rfl).mp hrecorded
      cases he
      exact ⟨rfl, rfl, hhead⟩
    · have hordered := Request.ordered_record o line
      rw [← hrest, outermost_append] at hordered
      exact Request.exists_prefix_of_ordered (hordered.of_prefix (List.prefix_append _ _))
  · have hroot : (Request.run o Sink.record line #[]).consumer.toList.any Event.isRoot = true ↔
        (line.toList.dropWhile o.isBlank).head? = some '/' := by
      rw [List.any_eq_true]
      constructor
      · rintro ⟨e, hmem, he⟩
        exact ((Request.mem_record_iff o line he).mp hmem).1
      · intro hhead
        exact ⟨_, (Request.mem_record_iff o line rfl).mpr ⟨hhead, rfl⟩, rfl⟩
    rw [Collector.read, Collector.sink, Request.run_ofStep, ← hroot]
    simp only [Report.hand, Collector.foldl_step_absolute, Bool.false_or]

/-- Inside a literal that nests, four states are open. -/
theorem stack_of_nested_literal : ∃ c : Config Label Unit,
    (Request.machine {} Sink.ignore).feed 7 1 ['(', '=', '[', '['] { consumer := () } = .ok () c
      ∧ (c.stack.map Frame.state).reverse ∈ Request.openStacks ∧ c.stack.length = 4 := by
  have hfeed : ∃ c : Config Label Unit, (Request.machine {} Sink.ignore).feed 7 1
      ['(', '=', '[', '['] { consumer := () } = .ok () c ∧ c.stack.length = 4 := ⟨_, rfl, rfl⟩
  obtain ⟨c, hc, hlen⟩ := hfeed
  exact ⟨c, hc, ((reachable_stacks_and_part_order {} Sink.ignore " (=[[" ()).1 7
    ['(', '=', '[', '['] c (by decide) ⟨[], by decide⟩ hc).1, hlen⟩

end RequestLine
