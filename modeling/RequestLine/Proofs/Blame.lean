import RequestLine.Proofs.Properties
import RequestLine.Proofs.Viable

/-!
# What an error points at

An error of a request line names an offset, a state and the character under the cursor. For a
character that is not allowed the offset is the cursor's. For a construct that was left open it is
the offset of the state that the construct opened, and that state was opened by the one character
that can open it: a place is grounded in what was read before it (`Place.Grounded`), each character
keeps it so (`Place.founded_next`), and so each error points at what it is about
(`Place.points_read`).
-/

namespace RequestLine

/-- The error of the line `cs`, in the course of which the events `es` happened, points at what it
is about. -/
def ParseError.Points (o : Options) (cs : List Char) (es : List Event) (e : ParseError) : Prop :=
  match e.cause with
  | .unterminatedQuote =>
    Text.charAt? e.offset cs = some '"' ∧ e.state = .quotes ∧ e.found = none
  | .unmatchedBracket opener =>
    opener ∈ ['[', '{', '('] ∧ Text.charAt? e.offset cs = some opener ∧ e.found = none
      ∧ o.lenientBrackets = false
  | .missingCloseParen =>
    Text.charAt? e.offset cs = some '(' ∧ (∀ n, .entered .propertyList n ∈ es ↔ n = e.offset)
      ∧ e.state = .propertyList ∧ e.found = none
  | .danglingEscape => ∃ before, cs = before ++ ['\\'] ∧ e.offset = Text.byteSize before
  | .emptyOperationName =>
    e.state = .operationName ∧ e.found ∈ [some '(', some '>', none]
      ∧ ∃ before blanks rest, cs = before ++ ':' :: (blanks ++ rest)
        ∧ e.offset = Text.byteSize before ∧ (∀ ch ∈ blanks, o.isBlank ch = true)
        ∧ e.found = rest.head?
        ∧ .leaving .operationName (Text.byteSize (before ++ ':' :: blanks)) e.found ∈ es
  | .emptyRedirectTarget => e.offset = Text.byteSize cs ∧ e.found = none
  | .unexpectedCharacter => ∃ ch, e.found = some ch ∧ Text.charAt? e.offset cs = some ch
  | .rejected _ => False

theorem Text.charAt?_byteSize_cons (cs : List Char) (ch : Char) (rest : List Char) :
    charAt? (byteSize cs) (cs ++ ch :: rest) = some ch :=
  charAt?_byteSize_append cs (ch :: rest)

namespace Opening

/-- The list was opened by a parenthesis in `cs`, and it was entered there. -/
def OpensList (cs : List Char) (es : List Event) (f : Opening) : Prop :=
  Text.charAt? f.offset cs = some '(' ∧ .entered .propertyList f.offset ∈ es

/-- The escape was opened by the last character of `cs`. -/
def OpensEscape (cs : List Char) (f : Opening) : Prop :=
  ∃ before, cs = before ++ ['\\'] ∧ f.offset = Text.byteSize before

/-- The operation was opened by a colon in `cs`, and if it has no character yet then only blanks
came after it. -/
def OpensOperation (o : Options) (cs : List Char) (f : Opening) : Prop :=
  ∃ before name, cs = before ++ ':' :: name ∧ f.offset = Text.byteSize before
    ∧ (f.forwarded = 0 → ∀ ch ∈ name, o.isBlank ch = true)

variable {o : Options} {cs : List Char} {es : List Event} {f : Opening}

theorem OpensList.seen (h : f.OpensList cs es) (es' : List Event) : f.OpensList cs (es ++ es') :=
  ⟨h.1, List.mem_append_left es' h.2⟩

theorem OpensList.append (h : f.OpensList cs es) (ds : List Char) (es' : List Event) :
    f.OpensList (cs ++ ds) (es ++ es') :=
  ⟨Text.charAt?_append h.1 ds, (h.seen es').2⟩

theorem OpensOperation.append (h : f.OpensOperation o cs) (ch : Char) {g : Opening}
    (hg : g.offset = f.offset)
    (hch : g.forwarded = 0 → f.forwarded = 0 ∧ o.isBlank ch = true) :
    g.OpensOperation o (cs ++ [ch]) := by
  obtain ⟨before, name, rfl, hoffset, hblank⟩ := h
  refine ⟨before, name ++ [ch], by simp, hg.trans hoffset, fun hnone c hc => ?_⟩
  obtain ⟨hf, hb⟩ := hch hnone
  rcases List.mem_append.mp hc with hc | hc
  · exact hblank hf c hc
  · rwa [List.mem_singleton.mp hc]

end Opening

/-- The list around the text is grounded. -/
def Owner.Grounded (cs : List Char) (es : List Event) : Owner → Prop
  | node _ | nodeName _ _ => True
  | property f _ | propertyValue f _ _ => f.OpensList cs es

def Shelter.Grounded (cs : List Char) : Shelter → Prop
  | none => True
  | escape e => e.OpensEscape cs
  | quotes q => Text.charAt? q.offset cs = some '"'
  | quotesEscape q e => Text.charAt? q.offset cs = some '"' ∧ e.OpensEscape cs

theorem Owner.Grounded.append {w : Owner} {cs : List Char} {es : List Event}
    (h : w.Grounded cs es) (ds : List Char) (es' : List Event) :
    w.Grounded (cs ++ ds) (es ++ es') := by
  cases w with
  | node f => trivial
  | nodeName f g => trivial
  | property f g => exact Opening.OpensList.append h ds es'
  | propertyValue f g v => exact Opening.OpensList.append h ds es'

theorem Owner.Grounded.counted {w : Owner} {cs : List Char} {es : List Event}
    (h : w.Grounded cs es) : w.counted.Grounded cs es := by
  cases w <;> exact h

namespace Place

/-- The states that are open at the place after `cs`, with the events `es`, were opened by the
characters of `cs` that open such states. -/
def Grounded (o : Options) (cs : List Char) (es : List Event) : Place → Prop
  | text w s => w.Grounded cs es ∧ s.Grounded cs
  | literal f _ _ b k _ =>
    f.OpensList cs es ∧ k.opener = b.opener ∧ Text.charAt? k.offset cs = some b.opener
  | operation f => f.OpensOperation o cs
  | list f => f.OpensList cs es
  | start | requestEnd _ | redirect _ | target _ _ => True

/-- The move that the character `ch` makes after `cs`, with the events `es`, leads to a grounded
place, or to an error that points at what it is about. -/
def Founded (o : Options) (cs : List Char) (es : List Event) (ch : Char) : Move → Prop
  | (es', .ok q) => q.Grounded o (cs ++ [ch]) (es ++ es')
  | (es', .error e) => ∀ rest, e.Points o (cs ++ ch :: rest) (es ++ es')

variable {o : Options} {cs : List Char} {es : List Event} {ch : Char} {p : Place}

theorem Founded.after {es' : List Event} {move : Move} (h : Founded o cs (es ++ es') ch move) :
    Founded o cs es ch (after es' move) := by
  rcases move with ⟨es'', e | q⟩
  · intro rest
    rw [← List.append_assoc]
    exact h rest
  · change q.Grounded o (cs ++ [ch]) (es ++ (es' ++ es''))
    rw [← List.append_assoc]
    exact h

theorem founded_unexpected (l : Label) :
    Founded o cs es ch (unexpected l (Text.byteSize cs) ch) :=
  fun rest => ⟨ch, rfl, Text.charAt?_byteSize_cons cs ch rest⟩

/-- A list that is entered at the parenthesis just read. -/
theorem opensList_last (cs : List Char) (es' : List Event) :
    Opening.OpensList (cs ++ ['(']) (es' ++ [Event.entered .propertyList (Text.byteSize cs)])
      { offset := Text.byteSize cs, opener := '(' } :=
  ⟨Text.charAt?_byteSize_cons cs '(' [], List.mem_append_right es' List.mem_cons_self⟩

theorem opensOperation_last :
    Opening.OpensOperation o (cs ++ [':']) { offset := Text.byteSize cs, opener := ':' } :=
  ⟨cs, [], rfl, rfl, fun _ _ hc => absurd hc List.not_mem_nil⟩

theorem founded_endSegment : Founded o cs es ch (endSegment (Text.byteSize cs) ch) := by
  unfold endSegment
  dsimp only
  split
  · exact ⟨trivial, trivial⟩
  split
  · rename_i hch
    subst hch
    exact opensOperation_last
  split
  · rename_i hch
    subst hch
    have hlist := opensList_last cs (es ++ [Event.leaving .node (Text.byteSize cs) (some '(')])
    rwa [List.append_assoc] at hlist
  · trivial

theorem founded_endProperty {f : Opening} (hf : f.OpensList cs es) :
    Founded o cs es ch (endProperty (Text.byteSize cs) ch f) := by
  unfold endProperty
  dsimp only
  split
  · exact ⟨hf.append _ _, trivial⟩
  · trivial

theorem founded_onMark {w : Owner} (hw : w.Grounded cs es) :
    Founded o cs es ch (onMark (Text.byteSize cs) ch w) := by
  cases w with
  | node f =>
    simp only [onMark]
    split
    · exact ⟨trivial, trivial⟩
    split
    · exact founded_unexpected .node
    · exact founded_endSegment
  | nodeName f g =>
    simp only [onMark]
    split
    · exact founded_unexpected .nodeName
    split
    · exact founded_unexpected .nodeName
    · exact founded_endSegment.after
  | property f g =>
    simp only [onMark]
    split
    · exact ⟨hw.append _ _, trivial⟩
    · exact founded_endProperty hw
  | propertyValue f g v =>
    simp only [onMark]
    split
    · rename_i b hb
      obtain rfl := Bracket.ofOpener?_eq_some_iff.mp hb
      exact ⟨hw.append _ _, rfl, Text.charAt?_byteSize_cons cs b.opener []⟩
    · exact (founded_endProperty (Opening.OpensList.seen hw _)).after

theorem founded_onText {w : Owner} (hw : w.Grounded cs es) :
    Founded o cs es ch (onText o (Text.byteSize cs) ch w) := by
  unfold onText
  split
  · exact ⟨hw.append _ _, trivial⟩
  split
  · rename_i hch
    subst hch
    exact ⟨hw.append _ _, Text.charAt?_byteSize_cons cs '"' []⟩
  split
  · rename_i hch
    simp only [Bool.and_eq_true, decide_eq_true_eq] at hch
    obtain ⟨rfl, -⟩ := hch
    exact ⟨hw.append _ _, cs, rfl, rfl⟩
  split
  · exact founded_onMark hw
  · exact ⟨(hw.append _ _).counted, trivial⟩

theorem founded_onQuoted {w : Owner} {q : Opening} (hw : w.Grounded cs es)
    (hq : Text.charAt? q.offset cs = some '"') :
    Founded o cs es ch (onQuoted o (Text.byteSize cs) ch w q) := by
  unfold onQuoted
  split
  · exact ⟨hw.append _ _, trivial⟩
  split
  · rename_i hch
    simp only [Bool.and_eq_true, decide_eq_true_eq] at hch
    obtain ⟨rfl, -⟩ := hch
    exact ⟨hw.append _ _, Text.charAt?_append hq _, cs, rfl, rfl⟩
  · exact ⟨hw.append _ _, Text.charAt?_append hq _⟩

theorem founded_onLiteral {f g v k : Opening} {b : Bracket} {depth : Nat}
    (h : (literal f g v b k depth).Grounded o cs es) :
    Founded o cs es ch (onLiteral (Text.byteSize cs) ch f g v b k depth) := by
  obtain ⟨hf, hk, hat⟩ := h
  unfold onLiteral
  repeat' split
  · exact ⟨hf.append _ _, hk, Text.charAt?_append hat _⟩
  · exact ⟨hf.append _ _, hk, Text.charAt?_append hat _⟩
  · exact ⟨hf.append _ _, trivial⟩
  · exact ⟨hf.append _ _, hk, Text.charAt?_append hat _⟩

/-- An operation that ends without a name is blamed on its colon. -/
theorem founded_endOperation {f : Opening} {l : Label} {q : Place} (hf : f.OpensOperation o cs)
    (hch : ch = '(' ∨ ch = '>')
    (hq : q.Grounded o (cs ++ [ch])
      (es ++ [Event.leaving .operationName (Text.byteSize cs) (some ch),
        .entered l (Text.byteSize cs)])) :
    Founded o cs es ch (endOperation (Text.byteSize cs) ch f l q) := by
  unfold endOperation
  dsimp only
  split
  · rename_i hnone
    obtain ⟨before, blanks, rfl, hoffset, hblanks⟩ := hf
    intro rest
    refine ⟨rfl, ?_, before, blanks, ch :: rest, by simp, hoffset, hblanks hnone, rfl,
      List.mem_append_right es List.mem_cons_self⟩
    rcases hch with rfl | rfl <;> simp
  · exact hq

theorem founded_onOperation {f : Opening} (hf : f.OpensOperation o cs) :
    Founded o cs es ch (onOperation o (Text.byteSize cs) ch f) := by
  unfold onOperation
  dsimp only
  split
  · rename_i hblank
    simp only [Bool.and_eq_true, decide_eq_true_eq] at hblank
    exact hf.append ch rfl fun hnone => ⟨hnone, hblank.1⟩
  split
  · rename_i hch
    subst hch
    refine founded_endOperation hf (.inl rfl) ?_
    have hlist := opensList_last cs
      (es ++ [Event.leaving .operationName (Text.byteSize cs) (some '(')])
    rwa [List.append_assoc] at hlist
  split
  · rename_i hch
    exact founded_endOperation hf (.inr hch) trivial
  split
  · exact founded_unexpected .operationName
  · exact hf.append ch rfl fun hnone => absurd hnone (Nat.succ_ne_zero _)

/-- What a character does at a grounded place is founded. -/
theorem founded_next (h : p.Grounded o cs es) :
    Founded o cs es ch (p.next o (Text.byteSize cs) ch) := by
  cases p with
  | start =>
    simp only [next]
    split
    · trivial
    split
    · exact ⟨trivial, trivial⟩
    split
    · rename_i hch
      subst hch
      exact opensOperation_last
    split
    · rename_i hch
      subst hch
      exact opensList_last cs es
    split
    · trivial
    · exact (founded_onText (w := .node _) trivial).after
  | text w s =>
    obtain ⟨hw, hs⟩ := h
    cases s with
    | none => exact founded_onText hw
    | escape e => exact ⟨hw.append _ _, trivial⟩
    | quotes q => exact founded_onQuoted hw hs
    | quotesEscape q e => exact ⟨hw.append _ _, Text.charAt?_append hs.1 _⟩
  | literal f g v b k depth => exact founded_onLiteral h
  | operation f => exact founded_onOperation h
  | list f =>
    simp only [next]
    split
    · exact h.append _ _
    split
    · trivial
    · exact (founded_onText (w := .property f _) (Opening.OpensList.seen h _)).after
  | requestEnd f =>
    simp only [next]
    split
    · trivial
    split
    · trivial
    · exact founded_unexpected .requestEnd
  | redirect f =>
    simp only [next, onTarget]
    split
    · split
      · trivial
      · exact founded_unexpected .outputRedirect
    · split <;> trivial
  | target f g =>
    simp only [next, onTarget]
    split <;> trivial

/-- A line enters at most one list: behind its parenthesis none can be entered. -/
theorem entered_list_unique {n k m : Nat} (hk : .entered .propertyList k ∈ (p.read o n cs).1)
    (hm : .entered .propertyList m ∈ (p.read o n cs).1) : k = m := by
  induction cs generalizing n p with
  | nil =>
    obtain ⟨ls, hls⟩ := finish_leavings (o := o) (n := n) p
    simp [read, feed, delay, hls] at hk
  | cons ch cs ih =>
    have hstep : EntersList p n ch (p.next o n ch) := entersList_next
    rcases hnext : p.next o n ch with ⟨es₁, e | q⟩ <;> rw [hnext] at hstep
    · rw [read_cons_of_error hnext] at hk hm
      rw [(hstep k hk).2.2.1, (hstep m hm).2.2.1]
    have hlater : ∀ i j, .entered .propertyList i ∈ es₁ →
        .entered .propertyList j ∉ (q.read o (n + ch.utf8Size) cs).1 := by
      intro i j hi hj
      obtain ⟨-, -, -, es₂, hes⟩ := hstep i hi
      obtain rfl := Except.ok.inj (Prod.mk.inj hes).2
      have hlist : some Label.propertyList ∉ beforeList := by decide
      exact hlist (exists_list_of_entered hj).1
    rw [read_cons hnext] at hk hm
    rcases List.mem_append.mp hk with hk | hk <;> rcases List.mem_append.mp hm with hm | hm
    · rw [(hstep k hk).2.2.1, (hstep m hm).2.2.1]
    · exact absurd hm (hlater k m hk)
    · exact absurd hk (hlater m k hm)
    · exact ih hk hm

section Finish

variable {e : ParseError}

/-- At most one list was entered. -/
def OnlyList (es : List Event) : Prop :=
  ∀ k m, .entered .propertyList k ∈ es → .entered .propertyList m ∈ es → k = m

theorem points_finishList {n : Nat} {f : Opening} {ls : List Label} (hf : f.OpensList cs es)
    (honly : OnlyList (es ++ (finishList n f ls).1)) (h : (finishList n f ls).2 = some e) :
    e.Points o cs (es ++ (finishList n f ls).1) := by
  obtain rfl := Option.some.inj h
  have hmem := (hf.seen (finishList n f ls).1).2
  refine ⟨hf.1, fun m => ⟨fun hm => honly m f.offset hm hmem, ?_⟩, rfl, rfl⟩
  rintro rfl
  exact hmem

/-- What the end of the line does at a grounded place points at what it is about. -/
theorem points_finish (hp : p.Grounded o cs es)
    (honly : OnlyList (es ++ (p.finish o (Text.byteSize cs)).1))
    (h : (p.finish o (Text.byteSize cs)).2 = some e) :
    e.Points o cs (es ++ (p.finish o (Text.byteSize cs)).1) := by
  cases p with
  | start => cases h
  | text w s =>
    obtain ⟨hw, hs⟩ := hp
    cases s with
    | none =>
      cases w with
      | node f => cases h
      | nodeName f g => cases h
      | property f g => exact points_finishList hw honly h
      | propertyValue f g v => exact points_finishList hw honly h
    | escape x =>
      obtain rfl := Option.some.inj h
      exact hs
    | quotes q =>
      obtain rfl := Option.some.inj h
      exact ⟨hs, rfl, rfl⟩
    | quotesEscape q x =>
      obtain rfl := Option.some.inj h
      exact hs.2
  | literal f g v b k depth =>
    obtain ⟨hf, hk, hat⟩ := hp
    simp only [finish] at honly h ⊢
    split at h
    · rename_i hlenient
      simp only [hlenient, if_true] at honly ⊢
      exact points_finishList hf honly h
    · rename_i hstrict
      obtain rfl := Option.some.inj h
      refine ⟨?_, hk ▸ hat, rfl, Bool.eq_false_iff.mpr hstrict⟩
      rw [hk]
      cases b <;> decide
  | operation f =>
    obtain ⟨before, blanks, rfl, hoffset, hblanks⟩ := hp
    simp only [finish] at h ⊢
    split at h
    · rename_i hnone
      obtain rfl := Option.some.inj h
      exact ⟨rfl, by simp, before, blanks, [], by simp, hoffset, hblanks hnone, rfl,
        List.mem_append_right es List.mem_cons_self⟩
    · cases h
  | list f => exact points_finishList hp honly h
  | requestEnd f => cases h
  | redirect f =>
    obtain rfl := Option.some.inj h
    exact ⟨rfl, rfl⟩
  | target f g =>
    simp only [finish] at h ⊢
    split at h
    · obtain rfl := Option.some.inj h
      exact ⟨rfl, rfl⟩
    · cases h

/-- The error of a line that is read on from a grounded place points at what it is about. -/
theorem points_read (hp : p.Grounded o cs es) {ds : List Char}
    (honly : OnlyList (es ++ (p.read o (Text.byteSize cs) ds).1))
    (h : (p.read o (Text.byteSize cs) ds).2 = some e) :
    e.Points o (cs ++ ds) (es ++ (p.read o (Text.byteSize cs) ds).1) := by
  induction ds generalizing p cs es with
  | nil =>
    simp only [read, feed, delay, List.nil_append, Text.byteSize_nil, Nat.add_zero,
      List.append_nil] at honly h ⊢
    exact points_finish hp honly h
  | cons ch ds ih =>
    have hstep : Founded o cs es ch (p.next o (Text.byteSize cs) ch) := founded_next hp
    rcases hnext : p.next o (Text.byteSize cs) ch with ⟨es₁, e₁ | q⟩ <;> rw [hnext] at hstep
    · rw [read_cons_of_error hnext] at h ⊢
      obtain rfl := Option.some.inj h
      exact hstep ds
    · have hsize : Text.byteSize cs + ch.utf8Size = Text.byteSize (cs ++ [ch]) := by simp
      rw [read_cons hnext, hsize] at honly h ⊢
      simp only [delay, ← List.append_assoc] at honly h ⊢
      have hrest := ih hstep honly h
      rwa [List.append_assoc, List.singleton_append] at hrest

end Finish

end Place

/-- The error of a line points at what it is about, and the consumer, as long as it takes every
event, has no part in it. -/
theorem error_points_at_its_cause {σ : Type} {S : Sink σ} (o : Options) (hS : S.Accepting)
    (line : String) (s : σ) {stop : Stop} (h : (Request.run o S line s).outcome = .error stop) :
    ∃ e, stop = (if o.fatalErrors then .fatal e else .failed e)
      ∧ e.Points o line.toList (Request.run o Sink.record line #[]).consumer.toList := by
  rw [Request.outcome_of_accepting o hS] at h
  obtain ⟨e, he, hstop⟩ := Place.verdict_eq_error_iff.mp h
  rw [(Request.run_record o line).1]
  have hstart : Place.start.Grounded o [] [] := trivial
  exact ⟨e, hstop, Place.points_read hstart (fun k m => Place.entered_list_unique) he⟩

/-- A list that follows a quoted parenthesis is left open behind a value that has one too. -/
theorem error_points_at_open_list :
    let line := "\"(\"(a=(b)"
    (Request.run {} Sink.ignore line ()).outcome
        = .error (.failed ⟨.missingCloseParen, 3, .propertyList, none⟩)
      ∧ Text.charAt? 3 line.toList = some '('
      ∧ ∀ n, .entered .propertyList n ∈ (Request.run {} Sink.record line #[]).consumer.toList
        ↔ n = 3 := by
  intro line
  have hrun : (Request.run {} Sink.ignore line ()).outcome
      = .error (.failed ⟨.missingCloseParen, 3, .propertyList, none⟩) := by decide +kernel
  obtain ⟨e, hstop, hpoints⟩ := error_points_at_its_cause {} Sink.ignore_accepting line () hrun
  obtain rfl := Stop.failed.inj hstop
  exact ⟨hrun, hpoints.1, hpoints.2.1⟩

end RequestLine
