import RequestLine.Proofs.Parts

/-!
# Every character is accounted for

A character of a request line is passed on once, or it is a blank, or it is a mark that opens or
closes a state. `Place.spends_next` says so for one character at one place, `Place.covers_read`
for a whole line, and `characters_covered_once` puts it in terms of the offsets of the events.
-/

namespace RequestLine

/-- The marks that may do their work without being passed on. -/
def Options.Absorbs (o : Options) (ch : Char) : Prop :=
  ch ∈ ['"', '\\', '=', '/', ':', '(', ')', ',', '>'] ∧ (ch = '\\' → o.escapeRule = .backslash)

theorem Options.Absorbs.of_separator {o : Options} {ch : Char}
    (h : ch ∈ ['=', '/', ':', '(', ')', ',', '>']) : o.Absorbs ch :=
  ⟨List.mem_cons_of_mem _ (List.mem_cons_of_mem _ h), by rintro rfl; simp at h⟩

/-- The events account for the character `ch` at `n`: they happen there, and they pass it on once,
or not at all if it is blank or a mark that opens or closes something. -/
structure Accounts (o : Options) (n : Nat) (ch : Char) (es : List Event) : Prop where
  offset : ∀ e ∈ es, e.offset = n
  passed : (∃ l, es.filter (·.kind = .character) = [.character l ch n])
    ∨ es.filter (·.kind = .character) = []
      ∧ (o.isBlank ch = false → o.Absorbs ch ∧ es ≠ [])

namespace Accounts

variable {o : Options} {n : Nat} {ch : Char} {es : List Event}

theorem blank (h : o.isBlank ch = true) : Accounts o n ch [] :=
  ⟨by simp, .inr ⟨rfl, fun hno => absurd h (by simp [hno])⟩⟩

theorem character (l : Label) : Accounts o n ch [.character l ch n] :=
  ⟨by simp [Event.offset], .inl ⟨l, rfl⟩⟩

/-- The character is passed on, and a state is opened or closed after that. -/
theorem passedOut (l : Label) {e : Event} (he : e.offset = n) (hkind : e.kind ≠ .character) :
    Accounts o n ch [.character l ch n, e] := by
  refine ⟨fun x hx => ?_, .inl ⟨l, ?_⟩⟩
  · rcases List.mem_pair.mp hx with rfl | rfl
    · rfl
    · exact he
  · rw [List.filter_cons_of_pos rfl, List.filter_singleton]
    simp [hkind]

/-- A mark opens the state `l`. -/
theorem entered (h : o.Absorbs ch) (l : Label) : Accounts o n ch [.entered l n] :=
  ⟨by simp [Event.offset], .inr ⟨rfl, fun _ => ⟨h, List.cons_ne_nil _ _⟩⟩⟩

/-- A mark closes the state `l`. -/
theorem left (h : o.Absorbs ch) (l : Label) (x : Option Char) :
    Accounts o n ch [.leaving l n x] :=
  ⟨by simp [Event.offset], .inr ⟨rfl, fun _ => ⟨h, List.cons_ne_nil _ _⟩⟩⟩

theorem cons {e : Event} (h : Accounts o n ch es) (he : e.offset = n)
    (hkind : e.kind ≠ .character) : Accounts o n ch (e :: es) := by
  have hfilter : (e :: es).filter (·.kind = .character) = es.filter (·.kind = .character) := by
    simp [hkind]
  refine ⟨List.forall_mem_cons.mpr ⟨he, h.offset⟩, ?_⟩
  rw [hfilter]
  exact h.passed.imp_right (.imp_right fun habsorbs hno =>
    ⟨(habsorbs hno).1, List.cons_ne_nil e es⟩)

end Accounts

namespace Place

/-- If the move leads to a place, its events account for the character. -/
def Spends (o : Options) (n : Nat) (ch : Char) (move : Move) : Prop :=
  ∀ q, move.2 = .ok q → Accounts o n ch move.1

variable {o : Options} {n : Nat} {ch : Char} {p q : Place}

section Moves

theorem Spends.of_accounts {es : List Event} (h : Accounts o n ch es) :
    Spends o n ch (es, .ok q) :=
  fun _ _ => h

theorem Spends.after_entered {move : Move} (h : Spends o n ch move) (l : Label) :
    Spends o n ch (after [.entered l n] move) :=
  fun q hq => (h q hq).cons rfl (by simp [Event.kind])

theorem Spends.after_leaving {move : Move} (h : Spends o n ch move) (l : Label)
    (x : Option Char) : Spends o n ch (after [.leaving l n x] move) :=
  fun q hq => (h q hq).cons rfl (by simp [Event.kind])

theorem spends_blank {b : Bool} (h : (o.isBlank ch && b) = true) : Spends o n ch ([], .ok q) :=
  .of_accounts (.blank (Bool.and_eq_true_iff.mp h).1)

theorem spends_character (l : Label) : Spends o n ch ([.character l ch n], .ok q) :=
  .of_accounts (.character l)

/-- A mark closes one state and opens the next. -/
theorem spends_step (h : o.Absorbs ch) (l l' : Label) :
    Spends o n ch ([.leaving l n (some ch), .entered l' n], .ok q) :=
  Spends.after_leaving (.of_accounts (.entered h l')) l (some ch)

/-- A character is passed on by a state that it closes. -/
theorem spends_last (l : Label) :
    Spends o n ch ([.character l ch n, .leaving l n (some ch)], .ok q) :=
  .of_accounts (.passedOut l rfl (by simp [Event.kind]))

theorem spends_unexpected {l : Label} : Spends o n ch (unexpected l n ch) :=
  fun q hq => by cases hq

end Moves

theorem spends_endSegment (h : o.Absorbs ch) : Spends o n ch (endSegment n ch) := by
  unfold endSegment
  dsimp only
  repeat' split
  all_goals exact spends_step h .node _

theorem spends_endList (h : o.Absorbs ch) : Spends o n ch (endList n ch) :=
  spends_step h .propertyList .requestEnd

theorem spends_endProperty {f : Opening} (h : o.Absorbs ch) :
    Spends o n ch (endProperty n ch f) := by
  unfold endProperty
  dsimp only
  split
  · exact spends_step h .property .property
  · exact (spends_endList h).after_leaving .property (some ch)

theorem spends_onMark {w : Owner} (h : ch ∈ w.marks) : Spends o n ch (onMark n ch w) := by
  cases w with
  | node f =>
    have habsorbs : o.Absorbs ch := .of_separator (by simp [Owner.marks] at h ⊢; tauto)
    simp only [onMark]
    split
    · exact .of_accounts (.entered habsorbs .nodeName)
    split
    · exact spends_unexpected
    · exact spends_endSegment habsorbs
  | nodeName f g =>
    have habsorbs : o.Absorbs ch := .of_separator (by simp [Owner.marks] at h ⊢; tauto)
    simp only [onMark]
    split
    · exact spends_unexpected
    split
    · exact spends_unexpected
    · exact (spends_endSegment habsorbs).after_leaving .nodeName (some ch)
  | property f g =>
    have habsorbs : o.Absorbs ch := .of_separator (by simp [Owner.marks] at h ⊢; tauto)
    simp only [onMark]
    split
    · exact .of_accounts (.entered habsorbs .propertyValue)
    · exact spends_endProperty habsorbs
  | propertyValue f g v =>
    simp only [onMark]
    split
    · rename_i b hb
      exact Spends.after_entered (spends_character b.label) b.label
    · rename_i hnone
      have hplain : ch ≠ '[' ∧ ch ≠ '{' ∧ ch ≠ '(' := by
        refine ⟨?_, ?_, ?_⟩ <;> rintro rfl <;> cases hnone
      have habsorbs : o.Absorbs ch := .of_separator (by simp [Owner.marks] at h ⊢; tauto)
      exact (spends_endProperty habsorbs).after_leaving .propertyValue (some ch)

theorem absorbs_quote : o.Absorbs '"' :=
  ⟨by simp, by simp⟩

theorem absorbs_backslash (h : (ch = '\\' && o.escapeRule = .backslash) = true) :
    o.Absorbs ch := by
  simp only [Bool.and_eq_true, decide_eq_true_eq] at h
  exact ⟨by simp [h.1], fun _ => h.2⟩

theorem spends_onText {w : Owner} : Spends o n ch (onText o n ch w) := by
  unfold onText
  split
  · rename_i hblank
    exact spends_blank hblank
  split
  · rename_i hch
    exact .of_accounts (.entered (hch ▸ absorbs_quote) .quotes)
  split
  · rename_i hch
    exact .of_accounts (.entered (absorbs_backslash hch) .escape)
  split
  · rename_i hmark
    exact spends_onMark hmark
  · exact spends_character w.label

theorem spends_onQuoted {w : Owner} {x : Opening} : Spends o n ch (onQuoted o n ch w x) := by
  unfold onQuoted
  split
  · rename_i hch
    exact .of_accounts (.left (hch ▸ absorbs_quote) .quotes (some ch))
  split
  · rename_i hch
    exact .of_accounts (.entered (absorbs_backslash hch) .escape)
  · exact spends_character .quotes

theorem spends_onLiteral {f g v k : Opening} {b : Bracket} {depth : Nat} :
    Spends o n ch (onLiteral n ch f g v b k depth) := by
  unfold onLiteral
  repeat' split
  · exact spends_character b.label
  · exact spends_character b.label
  · exact spends_last b.label
  · exact spends_character b.label

theorem spends_endOperation {f : Opening} {l : Label} (h : o.Absorbs ch) :
    Spends o n ch (endOperation n ch f l p) := by
  unfold endOperation
  dsimp only
  split
  · exact fun q hq => by cases hq
  · exact spends_step h .operationName l

theorem spends_onOperation {f : Opening} : Spends o n ch (onOperation o n ch f) := by
  unfold onOperation
  dsimp only
  split
  · rename_i hblank
    exact spends_blank hblank
  split
  · rename_i hch
    exact spends_endOperation (.of_separator (by simp [hch]))
  split
  · rename_i hch
    exact spends_endOperation (.of_separator (by simp [hch]))
  split
  · exact spends_unexpected
  · exact spends_character .operationName

theorem spends_onTarget {f g : Opening} : Spends o n ch (onTarget o n ch f g) := by
  unfold onTarget
  split
  · rename_i hblank
    exact spends_blank hblank
  · exact spends_character .outputTarget

theorem spends_start : Spends o n ch (next o n ch .start) := by
  simp only [next]
  split
  · rename_i hblank
    exact .of_accounts (.blank hblank)
  split
  · exact .of_accounts (.passedOut .initial rfl (by simp [Event.kind]))
  split
  · rename_i hch
    exact .of_accounts (.entered (.of_separator (by simp [hch])) .operationName)
  split
  · rename_i hch
    exact .of_accounts (.entered (.of_separator (by simp [hch])) .propertyList)
  split
  · rename_i hch
    exact .of_accounts (.entered (.of_separator (by simp [hch])) .outputRedirect)
  · exact spends_onText.after_entered .node

/-- The events of a character account for it. -/
theorem spends_next : Spends o n ch (p.next o n ch) := by
  cases p with
  | start => exact spends_start
  | text w s =>
    cases s with
    | none => exact spends_onText
    | escape e => exact spends_last .escape
    | quotes x => exact spends_onQuoted
    | quotesEscape x e => exact spends_last .escape
  | literal f g v b k depth => exact spends_onLiteral
  | operation f => exact spends_onOperation
  | list f =>
    simp only [next]
    split
    · rename_i hblank
      exact .of_accounts (.blank hblank)
    split
    · rename_i hch
      exact spends_endList (.of_separator (by simp [hch]))
    · exact spends_onText.after_entered .property
  | requestEnd f =>
    simp only [next]
    split
    · rename_i hblank
      exact .of_accounts (.blank hblank)
    split
    · rename_i hch
      exact spends_step (.of_separator (by simp [hch])) .requestEnd .outputRedirect
    · exact spends_unexpected
  | redirect f =>
    simp only [next]
    split
    · split
      · exact spends_character .outputRedirect
      · exact spends_unexpected
    · exact spends_onTarget.after_entered .outputTarget
  | target f g => exact spends_onTarget

end Place

/-- The events, one stretch for each character, account for the characters `cs`, the first of which
stands at `n`; those after them only close what is open. -/
inductive Covers (o : Options) : Nat → List Char → List Event → Prop
  | nil {n : Nat} {es : List Event} (h : ∀ e ∈ es, e.offset = n ∧ e.kind ≠ .character) :
    Covers o n [] es
  | cons {n : Nat} {ch : Char} {cs : List Char} {es es' : List Event} (h : Accounts o n ch es)
    (hcs : Covers o (n + ch.utf8Size) cs es') : Covers o n (ch :: cs) (es ++ es')

theorem Place.covers_read {o : Options} {n : Nat} {cs : List Char} {p : Place}
    (h : (p.read o n cs).2 = none) : Covers o n cs (p.read o n cs).1 := by
  induction cs generalizing n p with
  | nil =>
    obtain ⟨ls, hls⟩ := finish_leavings (o := o) (n := n) p
    refine .nil fun e he => ?_
    simp only [read, feed, delay, hls, Text.byteSize_nil, Nat.add_zero, List.nil_append] at he
    obtain ⟨l, -, rfl⟩ := List.mem_map.mp he
    exact ⟨rfl, by simp [Event.kind]⟩
  | cons ch cs ih =>
    rcases hnext : p.next o n ch with ⟨es, e | q⟩
    · rw [read_cons_of_error hnext] at h
      cases h
    · have hstep : Accounts o n ch (p.next o n ch).1 := spends_next q (by rw [hnext])
      rw [hnext] at hstep
      rw [read_cons hnext] at h ⊢
      exact .cons hstep (ih h)

namespace Covers

variable {o : Options} {n : Nat} {cs : List Char} {es : List Event}

theorem le_offset (h : Covers o n cs es) : ∀ e ∈ es, n ≤ e.offset := by
  induction h with
  | nil hes => exact fun e he => (hes e he).1.ge
  | cons hone hcs ih =>
    intro e he
    rcases List.mem_append.mp he with he | he
    · exact (hone.offset e he).ge
    · exact Nat.le_of_add_right_le (ih e he)

/-- A character that is passed on is the one that stands at the offset. -/
theorem exists_of_character (h : Covers o n cs es) {l : Label} {ch : Char} {m : Nat}
    (hmem : .character l ch m ∈ es) :
    ∃ before after, cs = before ++ ch :: after ∧ m = n + Text.byteSize before := by
  induction h with
  | nil hes => exact absurd rfl (hes _ hmem).2
  | @cons n c cs es es' hone hcs ih =>
    rcases List.mem_append.mp hmem with hmem | hmem
    · have hfilter : .character l ch m ∈ es.filter (·.kind = .character) :=
        List.mem_filter.mpr ⟨hmem, rfl⟩
      rcases hone.passed with ⟨l', hl'⟩ | ⟨hnone, -⟩
      · rw [hl', List.mem_singleton] at hfilter
        obtain ⟨-, rfl, rfl⟩ := Event.character.inj hfilter
        exact ⟨[], cs, rfl, rfl⟩
      · rw [hnone] at hfilter
        cases hfilter
    · obtain ⟨before, after, rfl, rfl⟩ := ih hmem
      exact ⟨c :: before, after, rfl, by rw [Text.byteSize_cons, Nat.add_assoc]⟩

theorem countP_character_le_one (h : Covers o n cs es) (m : Nat) :
    es.countP (fun e => e.kind = .character ∧ e.offset = m) ≤ 1 := by
  induction h with
  | nil hes =>
    rw [List.countP_eq_zero.mpr fun e he => by simp [(hes e he).2]]
    exact Nat.zero_le 1
  | @cons n c cs es es' hone hcs ih =>
    rw [List.countP_append]
    by_cases hm : m = n
    · have hlater : es'.countP (fun e => e.kind = .character ∧ e.offset = m) = 0 := by
        refine List.countP_eq_zero.mpr fun e he => ?_
        have hle := hcs.le_offset e he
        have hpos := c.utf8Size_pos
        simp only [decide_eq_true_eq, not_and]
        omega
      have hone' : es.countP (fun e => e.kind = .character ∧ e.offset = m)
          ≤ (es.filter (·.kind = .character)).length := by
        rw [← List.countP_eq_length_filter]
        exact List.countP_mono_left fun e _ he => by simp_all
      rcases hone.passed with ⟨l, hl⟩ | ⟨hnone, -⟩
      · rw [hl, List.length_singleton] at hone'
        omega
      · rw [hnone, List.length_nil] at hone'
        omega
    · have hearlier : es.countP (fun e => e.kind = .character ∧ e.offset = m) = 0 := by
        refine List.countP_eq_zero.mpr fun e he => ?_
        simp [hone.offset e he, Ne.symm hm]
      omega

/-- What is neither passed on nor blank is a mark, and something is opened or closed there. -/
theorem passed_or_absorbed {before after : List Char} {ch : Char}
    (h : Covers o n (before ++ ch :: after) es) (hch : o.isBlank ch = false) :
    (∃ l, .character l ch (n + Text.byteSize before) ∈ es)
      ∨ o.Absorbs ch
        ∧ ∃ e ∈ es, e.offset = n + Text.byteSize before ∧ e.kind ≠ .character := by
  induction before generalizing n es with
  | nil =>
    obtain - | ⟨hone, hcs⟩ := h
    rename_i es es'
    rcases hone.passed with ⟨l, hl⟩ | ⟨hnone, habsorbs⟩
    · have hmem : .character l ch n ∈ es.filter (·.kind = .character) := by
        rw [hl]
        exact List.mem_cons_self
      exact .inl ⟨l, List.mem_append_left es' (List.mem_filter.mp hmem).1⟩
    · obtain ⟨hmark, hne⟩ := habsorbs hch
      obtain ⟨e, he⟩ := List.exists_mem_of_ne_nil es hne
      refine .inr ⟨hmark, e, List.mem_append_left es' he, hone.offset e he, ?_⟩
      simpa using List.filter_eq_nil_iff.mp hnone e he
  | cons c before ih =>
    obtain - | ⟨hone, hcs⟩ := h
    rename_i es es'
    rw [Text.byteSize_cons, ← Nat.add_assoc]
    rcases ih hcs with ⟨l, hl⟩ | ⟨hmark, e, he, hoffset⟩
    · exact .inl ⟨l, List.mem_append_right es hl⟩
    · exact .inr ⟨hmark, e, List.mem_append_right es he, hoffset⟩

end Covers

/-- No character of an accepted line is lost, and none is passed on twice. -/
theorem characters_covered_once {o : Options} {line : String}
    (h : (Request.run o Sink.record line #[]).outcome = .ok ()) :
    let events := (Request.run o Sink.record line #[]).consumer.toList
    (∀ n ch, Text.charAt? n line.toList = some ch → o.isBlank ch = false →
        ∃ e ∈ events, e.offset = n)
      ∧ (∀ n, events.countP (fun e => e.kind = .character ∧ e.offset = n) ≤ 1)
      ∧ (∀ l ch n, .character l ch n ∈ events → Text.charAt? n line.toList = some ch)
      ∧ ∀ n ch, Text.charAt? n line.toList = some ch → o.isBlank ch = false →
        (∀ l c, .character l c n ∉ events) →
          ch ∈ ['"', '\\', '=', '/', ':', '(', ')', ',', '>']
            ∧ (ch = '\\' → o.escapeRule = .backslash)
            ∧ ∃ e ∈ events, e.offset = n ∧ (e.kind = .entered ∨ e.kind = .leaving) := by
  rw [(Request.run_record o line).2, Place.verdict_eq_ok_iff] at h
  dsimp only
  rw [(Request.run_record o line).1]
  have hcovers := Place.covers_read h
  refine ⟨fun n ch hat hch => ?_, hcovers.countP_character_le_one, fun l ch n hmem => ?_,
    fun n ch hat hch hno => ?_⟩
  · obtain ⟨before, after, hline, rfl⟩ := Text.charAt?_eq_some_iff.mp hat
    rw [hline] at hcovers ⊢
    rcases hcovers.passed_or_absorbed hch with ⟨l, hl⟩ | ⟨-, e, he, hoffset, -⟩
    · exact ⟨_, hl, Nat.zero_add _⟩
    · exact ⟨e, he, hoffset.trans (Nat.zero_add _)⟩
  · obtain ⟨before, after, hline, rfl⟩ := hcovers.exists_of_character hmem
    exact Text.charAt?_eq_some_iff.mpr ⟨before, after, hline, Nat.zero_add _⟩
  · obtain ⟨before, after, hline, rfl⟩ := Text.charAt?_eq_some_iff.mp hat
    rw [hline] at hcovers hno ⊢
    rcases hcovers.passed_or_absorbed hch with ⟨l, hl⟩ | ⟨⟨hmark, hescape⟩, e, he, hoffset, hkind⟩
    · rw [Nat.zero_add] at hl
      exact absurd hl (hno l ch)
    · refine ⟨hmark, hescape, e, he, hoffset.trans (Nat.zero_add _), ?_⟩
      cases e <;> simp [Event.kind] at hkind ⊢

/-- The backslash in the quotes is not passed on, so it opens something. -/
theorem characters_covered_in_quotes :
    let line := "/ \"\\\" b\"=c > d"
    let events := (Request.run {} Sink.record line #[]).consumer.toList
    (Request.run {} Sink.record line #[]).outcome = .ok ()
      ∧ Text.charAt? 3 line.toList = some '\\'
      ∧ (∀ n, events.countP (fun e => e.kind = .character ∧ e.offset = n) ≤ 1)
      ∧ ∃ e ∈ events, e.offset = 3 ∧ (e.kind = .entered ∨ e.kind = .leaving) := by
  intro line events
  have hrun : (Request.run {} Sink.record line #[]).outcome = .ok () := by decide +kernel
  have hat : Text.charAt? 3 line.toList = some '\\' := by decide +kernel
  have hcovered := characters_covered_once hrun
  have hnone : events.all (fun e => e.kind ≠ .character ∨ e.offset ≠ 3) = true := by
    decide +kernel
  have hsilent := hcovered.2.2.2 3 '\\' hat (by decide) fun l c hmem => by
    simpa [Event.kind, Event.offset] using List.all_eq_true.mp hnone _ hmem
  exact ⟨hrun, hat, hcovered.2.1, hsilent.2.2⟩

end RequestLine
