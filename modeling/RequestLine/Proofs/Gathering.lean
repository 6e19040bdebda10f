import RequestLine.Proofs.WellFormed

/-!
# What the collector gathers from a text

A text of a line is written bare or between quotes. Either way the field of its owner spells the
text when it is read (`Place.gathers_write`), also when a blank follows it. The lines here are read
with the default options.

The collector keeps a separator and whether the list was closed for the sake of completion. No
other part of it depends on them, so `Collector.follow` forgets them after each event.
-/

namespace RequestLine

namespace Collector

/-- The collector without what it knows about the end of the line. -/
def plain (c : Collector) : Collector :=
  { c with listClosed := false, separator := none }

/-- Takes an event, and forgets about the end of the line. -/
def follow (c : Collector) (e : Event) : Collector :=
  (c.step e).plain

theorem seen_plain (c : Collector) (ch : Char) : (c.seen ch).plain = c.plain := by
  unfold seen
  split <;> rfl

theorem plain_step (c : Collector) (e : Event) : (c.step e).plain = c.plain.follow e := by
  cases e with
  | entered l n => cases l <;> rfl
  | character l ch n =>
    change (c.take l ch).plain = (c.plain.take l ch).plain
    have hseen : c.plain.seen ch = c.plain := by
      unfold seen
      split <;> rfl
    rw [take_eq, take_eq, hseen, ← c.seen_plain ch]
    generalize c.seen ch = d
    split
    · rfl
    · have hstack : d.plain.stack = d.stack := rfl
      rw [hstack]
      rcases textOwner d.stack with _ | ⟨owner, keep⟩
      · rfl
      · cases owner <;> rfl
  | leaving l n x =>
    change (c.leave l x).plain = (c.plain.leave l x).plain
    cases l
    case node => rw [leave_node, leave_node]; split <;> rfl
    case property => rw [leave_property, leave_property]; split <;> rfl
    case operationName =>
      have hop : c.plain.operation = c.operation := rfl
      rw [leave_operationName, leave_operationName, hop]
      split <;> rfl
    all_goals rfl

theorem plain_foldl_step (c : Collector) (es : List Event) :
    (es.foldl step c).plain = es.foldl follow c.plain := by
  induction es generalizing c with
  | nil => rfl
  | cons e es ih => rw [List.foldl_cons, ih, plain_step, List.foldl_cons]

/-- Where and with which character a state is left says something about the end of the line
only. -/
theorem follow_leaving (c : Collector) (l : Label) (n : Nat) (x : Option Char) :
    c.follow (.leaving l n x) = (c.leave l none).plain := by
  change (c.leave l x).plain = _
  cases l
  case node => rw [leave_node]; split <;> rfl
  case property => rw [leave_property]; split <;> rfl
  all_goals rfl

theorem follow_character {c : Collector} {l owner : Label} {ch : Char} {n : Nat} {keep : Bool}
    (hl : l ≠ .initial) (h : textOwner c.stack = some (owner, keep)) :
    c.follow (.character l ch n) = (c.give owner ch keep).plain := by
  change (c.take l ch).plain = _
  rw [take_eq, if_neg hl, (c.seen_calm ch).2, h]
  change ((c.seen ch).give owner ch keep).plain = _
  unfold seen
  split
  · rfl
  · cases owner <;> rfl

end Collector

/-- Reading `cs` from the place `p` with the collector `c` ends at the place `q` with the collector
`d`. -/
def Gathers (n : Nat) (p : Place) (c : Collector) (cs : List Char) (q : Place) (d : Collector) :
    Prop :=
  ∃ es, p.feed {} n cs = (es, .ok q) ∧ es.foldl Collector.follow c = d

namespace Gathers

variable {n : Nat} {p q r : Place} {c d e : Collector} {xs ys : List Char} {ch : Char}

theorem refl : Gathers n p c [] p c :=
  ⟨[], rfl, rfl⟩

theorem append (h : Gathers n p c xs q d) (h' : Gathers (n + Text.byteSize xs) q d ys r e) :
    Gathers n p c (xs ++ ys) r e := by
  obtain ⟨es, hfeed, rfl⟩ := h
  obtain ⟨es', hfeed', rfl⟩ := h'
  exact ⟨es ++ es', by rw [Place.feed_append hfeed, hfeed']; rfl, List.foldl_append⟩

theorem single {es : List Event} (h : p.next {} n ch = (es, .ok q))
    (hd : es.foldl Collector.follow c = d) : Gathers n p c [ch] q d :=
  ⟨es, by simp [Place.feed, h, Place.after], hd⟩

theorem cons (h : Gathers n p c [ch] q d) (h' : Gathers (n + ch.utf8Size) q d ys r e) :
    Gathers n p c (ch :: ys) r e :=
  h.append (by rwa [Text.byteSize_cons, Text.byteSize_nil, Nat.add_zero])

/-- A place that opens a state for a character goes on as inside of that state. -/
theorem opening {x : Event} (hnext : p.next {} n ch = Place.after [x] (q.next {} n ch))
    (h : Gathers n q (c.follow x) (ch :: xs) r d) : Gathers n p c (ch :: xs) r d := by
  obtain ⟨es, hfeed, rfl⟩ := h
  refine ⟨x :: es, ?_, rfl⟩
  simp only [Place.feed] at hfeed ⊢
  rw [hnext]
  rcases hq : q.next {} n ch with ⟨es₁, e₁ | q₁⟩
  · rw [hq] at hfeed
    cases hfeed
  · rw [hq] at hfeed
    obtain ⟨rfl, hr⟩ := Prod.mk.inj hfeed
    exact Prod.ext rfl hr

end Gathers

namespace Text

theorem trimEnd_of_edged {cs : List Char} (h : Edged cs) : trimEnd isPlainBlank cs = cs := by
  rw [trimEnd_eq_rdropWhile, List.rdropWhile_eq_self_iff]
  intro hne
  rw [h.2 _ (List.getLast_mem_getLast? hne)]
  simp

theorem trim_of_edged {cs : List Char} (h : Edged cs) : trim isPlainBlank cs = cs := by
  cases cs with
  | nil => rfl
  | cons c cs => rw [trim, trimStart_of_head (h.1 c rfl), trimEnd_of_edged h]

theorem trim_of_edged_blank {cs : List Char} (h : Edged cs) :
    trim isPlainBlank (cs ++ [' ']) = cs := by
  cases cs with
  | nil => rfl
  | cons c cs =>
    rw [trim, List.cons_append, trimStart_of_head (h.1 c rfl), ← List.cons_append,
      trimEnd_eq_rdropWhile, List.rdropWhile_concat_pos _ _ _ rfl, ← trimEnd_eq_rdropWhile,
      trimEnd_of_edged h]

end Text

/-- The field gives the text `s`, also when a blank follows it. -/
def Field.Spells (f : Field) (s : String) : Prop :=
  f.finish Text.isPlainBlank = s ∧ (f.push ' ' false).finish Text.isPlainBlank = s

namespace Field

/-- The field of a text that is written bare. -/
def bare (s : String) : Field :=
  { text := s }

def literal (s : String) : Field :=
  { text := s, kept := if s = "" then none else some (0, s.utf8ByteSize) }

theorem bare_spells {s : String} (h : Text.Edged s.toList) : (bare s).Spells s := by
  constructor
  · simp only [finish, trimmed?, bare, Text.trim_of_edged h, Option.getD_some, String.ofList_toList]
  · simp only [finish, trimmed?, bare, push, Bool.false_eq_true, if_false, String.toList_push,
      Text.trim_of_edged_blank h, Option.getD_some, String.ofList_toList]

theorem literal_spells (s : String) : (literal s).Spells s := by
  by_cases hs : s = ""
  · subst hs
    exact bare_spells ⟨by simp, by simp⟩
  have hstart : Text.splitAtByte? 0 s.toList = some ([], s.toList) :=
    Text.splitAtByte?_byteSize_append [] s.toList
  have hstop : ∀ ds, Text.splitAtByte? s.utf8ByteSize (s.toList ++ ds) = some (s.toList, ds) := by
    intro ds
    rw [← Text.byteSize_toList]
    exact Text.splitAtByte?_byteSize_append s.toList ds
  have hstop' := hstop []
  rw [List.append_nil] at hstop'
  constructor
  · simp [finish, trimmed?, literal, hs, hstop', hstart, Text.trimStart, Text.trimEnd]
  · simp [finish, trimmed?, literal, push, hs, hstop, hstart, Text.trimStart, Text.trimEnd,
      Text.isPlainBlank]

theorem foldl_push_bare (s : String) (cs : List Char) :
    cs.foldl (fun f c => f.push c false) (bare s) = bare (s ++ String.ofList cs) := by
  induction cs generalizing s with
  | nil => simp
  | cons c cs ih =>
    have hs : s.push c ++ String.ofList cs = s ++ String.ofList (c :: cs) :=
      String.toList_inj.mp (by simp)
    rw [List.foldl_cons, ← hs]
    exact ih (s.push c)

theorem foldl_push_toList (s : String) :
    s.toList.foldl (fun f c => f.push c false) {} = bare s := by
  have hpush := foldl_push_bare "" s.toList
  rwa [String.ofList_toList, String.empty_append] at hpush

theorem foldl_push_literal (s : String) (cs : List Char) :
    cs.foldl (fun f c => f.push c true) (literal s) = literal (s ++ String.ofList cs) := by
  induction cs generalizing s with
  | nil => simp
  | cons c cs ih =>
    have hs : s.push c ++ String.ofList cs = s ++ String.ofList (c :: cs) :=
      String.toList_inj.mp (by simp)
    have hpush : (literal s).push c true = literal (s.push c) := by
      have hne : s.push c ≠ "" := by simp
      by_cases he : s = ""
      · subst he
        simp [literal, push]
      · simp [literal, push, he, String.utf8ByteSize_push]
    rw [List.foldl_cons, ← hs, hpush]
    exact ih (s.push c)

end Field

namespace Owner

/-- The owner after `k` more characters of its own were passed on. -/
def grown (k : Nat) : Owner → Owner
  | node f => node { f with forwarded := f.forwarded + k }
  | nodeName f g => nodeName f { g with forwarded := g.forwarded + k }
  | property f g => property f { g with forwarded := g.forwarded + k }
  | propertyValue f g v => propertyValue f g { v with forwarded := v.forwarded + k }

def put (f : Field) (c : Collector) : Owner → Collector
  | node _ => { c with nodeType := f }
  | nodeName _ _ => { c with nodeName := some f }
  | property _ _ => { c with property := { c.property with name := f } }
  | propertyValue _ _ _ => { c with property := { c.property with value := some f } }

/-- The collector in a text of the owner, whose field is `f`. -/
def holding (w : Owner) (s : Shelter) (f : Field) (c : Collector) : Collector :=
  { (w.put f c).plain with stack := (Place.text w s).labels }

theorem holding_grown (w : Owner) (k : Nat) (f : Field) (c : Collector) :
    (w.grown k).holding .none f c = w.holding .none f c := by
  cases w <;> rfl

theorem follow_holding {w : Owner} {s : Shelter} {f : Field} {c : Collector} {l : Label} {ch : Char}
    {n : Nat} (hl : l ≠ .initial) :
    (w.holding s f c).follow (.character l ch n)
      = w.holding s (f.push ch (s ≠ .none)) c := by
  have howner : textOwner (w.holding s f c).stack = some (w.label, decide (s ≠ .none)) := by
    cases w <;> cases s <;> rfl
  rw [Collector.follow_character hl howner]
  cases w <;> rfl

end Owner

namespace Place

variable {n : Nat} {w : Owner} {f : Field} {c : Collector} {ch : Char}

/-- The character may be written bare. -/
def Bare (ch : Char) : Prop :=
  Text.isUnicodeBlank ch = false ∧ Text.isMark ch = false

theorem Bare.isPlainBlank (h : Bare ch) : Text.isPlainBlank ch = false := by
  rcases hb : Text.isPlainBlank ch with _ | _
  · rfl
  · have hu := Text.isUnicodeBlank_of_isPlainBlank hb
    rw [h.1] at hu
    cases hu

theorem edged_of_bare {cs : List Char} (h : ∀ ch ∈ cs, Bare ch) : Text.Edged cs :=
  ⟨fun ch hch => (h ch (List.mem_of_mem_head? hch)).isPlainBlank,
    fun ch hch => (h ch (List.mem_of_getLast? hch)).isPlainBlank⟩

theorem bare_of_not_needsQuotes {s : String} (hs : ¬ Text.needsQuotes s = true) :
    ∀ ch ∈ s.toList, Bare ch := by
  intro ch hch
  simp only [Text.needsQuotes, List.any_eq_true, Bool.or_eq_true, not_exists, not_and,
    not_or, Bool.not_eq_true] at hs
  exact hs ch hch

theorem gathers_bare_char (h : Bare ch) :
    Gathers n (.text w .none) (w.holding .none f c) [ch] (.text (w.grown 1) .none)
      (w.holding .none (f.push ch false) c) := by
  have hblank : Options.isBlank {} ch = false := h.isPlainBlank
  have hne : ∀ d, Text.isMark d = true → ch ≠ d := by
    rintro d hd rfl
    rw [h.2] at hd
    cases hd
  have hmarks : ch ∉ w.marks := fun hm => hne ch (Owner.isMark_of_mem_marks hm) rfl
  have hnext : next {} n ch (.text w .none)
      = ([.character w.label ch n], .ok (.text (w.grown 1) .none)) := by
    have hgrown : w.counted = w.grown 1 := by cases w <;> rfl
    simp [next, onText, hblank, hne '"' rfl, hne '\\' rfl, hmarks, hgrown]
  refine .single hnext ?_
  exact Owner.follow_holding (s := .none) (by cases w <;> simp [Owner.label])

theorem gathers_bare {cs : List Char} (h : ∀ ch ∈ cs, Bare ch) :
    Gathers n (.text w .none) (w.holding .none f c) cs (.text (w.grown cs.length) .none)
      (w.holding .none (cs.foldl (fun f ch => f.push ch false) f) c) := by
  induction cs generalizing n w f with
  | nil =>
    have hgrown : w.grown 0 = w := by cases w <;> rfl
    rw [List.length_nil, hgrown]
    exact .refl
  | cons ch cs ih =>
    have hcs := ih (n := n + ch.utf8Size) (w := w.grown 1) (f := f.push ch false)
      fun x hx => h x (List.mem_cons_of_mem ch hx)
    have hgrown : (w.grown 1).grown cs.length = w.grown (cs.length + 1) := by
      cases w <;> simp [Owner.grown, Nat.add_comm, Nat.add_left_comm]
    have hhold : ∀ g, (w.grown 1).holding .none g c = w.holding .none g c := fun g =>
      w.holding_grown 1 g c
    rw [hgrown, hhold, hhold] at hcs
    exact (gathers_bare_char (h ch List.mem_cons_self)).cons hcs

theorem gathers_protect (q : Opening) (ch : Char) : ∃ q', Gathers n (.text w (.quotes q))
    (w.holding (.quotes q) f c) (Text.protect ch) (.text w (.quotes q'))
    (w.holding (.quotes q') (f.push ch true) c) := by
  unfold Text.protect
  split
  · let x : Opening := { offset := n, opener := '\\' }
    have hescape : Gathers n (.text w (.quotes q)) (w.holding (.quotes q) f c) ['\\']
        (.text w (.quotesEscape q x)) (w.holding (.quotesEscape q x) f c) :=
      .single rfl (by cases w <;> rfl)
    have hchar : Gathers (n + Char.utf8Size '\\') (.text w (.quotesEscape q x))
        (w.holding (.quotesEscape q x) f c) [ch] (.text w (.quotes q))
        (w.holding (.quotes q) (f.push ch true) c) := by
      refine .single rfl ?_
      rw [List.foldl_cons, Owner.follow_holding (by simp)]
      cases w <;> rfl
    exact ⟨q, hescape.cons hchar⟩
  · rename_i hch
    simp only [Bool.or_eq_true, decide_eq_true_eq, not_or] at hch
    have hnext : next {} n ch (.text w (.quotes q))
        = ([.character .quotes ch n], .ok (.text w (.quotes q.counted))) := by
      simp [next, onQuoted, hch]
    refine ⟨q.counted, .single hnext ?_⟩
    rw [List.foldl_cons, Owner.follow_holding (by simp)]
    rfl

theorem gathers_quoted (q : Opening) (cs : List Char) : ∃ q', Gathers n (.text w (.quotes q))
    (w.holding (.quotes q) f c) (cs.flatMap Text.protect) (.text w (.quotes q'))
    (w.holding (.quotes q') (cs.foldl (fun f ch => f.push ch true) f) c) := by
  induction cs generalizing n f q with
  | nil => exact ⟨q, .refl⟩
  | cons ch cs ih =>
    obtain ⟨q₁, hch⟩ := gathers_protect (n := n) (w := w) (f := f) (c := c) q ch
    obtain ⟨q₂, hcs⟩ := ih (n := n + Text.byteSize (Text.protect ch)) (f := f.push ch true) q₁
    exact ⟨q₂, hch.append hcs⟩

theorem gathers_enquote (s : String) :
    Gathers n (.text w .none) (w.holding .none {} c) (Text.enquote s).toList (.text w .none)
      (w.holding .none (.literal s) c) := by
  let q : Opening := { offset := n, opener := '"' }
  have hopen : Gathers n (.text w .none) (w.holding .none {} c) ['"'] (.text w (.quotes q))
      (w.holding (.quotes q) {} c) := by
    have hnext : next {} n '"' (.text w .none)
        = ([.entered .quotes n], .ok (.text w (.quotes q))) := by
      simp [next, onText, Options.isBlank_of_isMark {} (show Text.isMark '"' = true from rfl), q]
    exact .single hnext (by cases w <;> rfl)
  obtain ⟨q', hbody⟩ := gathers_quoted (n := n + Char.utf8Size '"') (w := w) (f := {}) (c := c)
    q s.toList
  have hclose : ∀ m, Gathers m (.text w (.quotes q')) (w.holding (.quotes q') (.literal s) c) ['"']
      (.text w .none) (w.holding .none (.literal s) c) := fun m =>
    .single rfl (by cases w <;> rfl)
  have hfield : s.toList.foldl (fun f ch => f.push ch true) {} = Field.literal s := by
    have hpush := Field.foldl_push_literal "" s.toList
    rwa [String.ofList_toList, String.empty_append] at hpush
  rw [hfield] at hbody
  rw [Text.enquote, String.toList_ofList]
  exact (hopen.cons hbody).append (hclose _)

/-- A text as it stands in a line is read to a field that spells it. -/
theorem gathers_write (s : String) : ∃ k f,
    Gathers n (.text w .none) (w.holding .none {} c) (Text.write s).toList
      (.text (w.grown k) .none) (w.holding .none f c) ∧ f.Spells s := by
  unfold Text.write
  split
  · refine ⟨0, .literal s, ?_, Field.literal_spells s⟩
    have hgrown : w.grown 0 = w := by cases w <;> rfl
    rw [hgrown]
    exact gathers_enquote s
  · rename_i hs
    have hbare := bare_of_not_needsQuotes hs
    refine ⟨s.toList.length, .bare s, ?_, Field.bare_spells (edged_of_bare hbare)⟩
    rw [← Field.foldl_push_toList]
    exact gathers_bare hbare

end Place

end RequestLine
