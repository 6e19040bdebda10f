import RequestLine.Proofs.Draft

/-!
# No text is lost

At each place of a line the collector has a draft of the part that is read there, and the parts that
come later are not there yet (`Place.Holds`). Each character keeps it so (`Place.carries_next`), and
at the end of an accepted line the request has all characters that were passed on for its texts, in
their order, some blanks apart (`texts_conserved`).
-/

namespace RequestLine

theorem Owner.isLiteral_label (w : Owner) : w.label.isLiteral = false := by
  cases w <;> rfl

/-- An operation does not touch the parts that come after it. -/
theorem Draft.into_operation (o : Options) (r : Request) (name : List (Char × Bool)) :
    ((operation name).into o r).properties = r.properties
      ∧ ((operation name).into o r).redirect = r.redirect := by
  simp only [into]
  split <;> exact ⟨rfl, rfl⟩

namespace Place

/-- The draft `d` is of the part that is read at the place, and the parts after it are not yet in
the request. -/
def Holds (r : Request) (d : Draft) : Place → Prop
  | start => d = .nothing ∧ r.IsAddress
  | text w _ => d.label = w.label ∧ d.Fits r
  | literal _ _ _ _ _ _ => d.label = .propertyValue ∧ d.Fits r
  | operation f => d.label = .operationName ∧ d.Fits r ∧ d.chars.length = f.forwarded
  | list _ | requestEnd _ => d = .nothing ∧ r.properties ≠ none ∧ r.redirect = none
  | redirect _ | target _ _ => d.label = .outputTarget ∧ d.Fits r

/-- After the events `es`, which led to the place, nothing that was passed on is lost. -/
def Keeps (o : Options) (es : List Event) (p : Place) : Prop :=
  ∃ r d, Kept o es p.labels r d ∧ p.Holds r d

/-- If the move leads to a place, nothing is lost on the way. -/
def Carries (o : Options) (es : List Event) (move : Move) : Prop :=
  ∀ q, move.2 = .ok q → q.Keeps o (es ++ move.1)

variable {o : Options} {es : List Event} {n : Nat} {ch : Char} {p q : Place} {r : Request}
  {d : Draft}

section Moves

variable {x y : Event}

theorem Carries.after {es' : List Event} {move : Move} (h : Carries o (es ++ es') move) :
    Carries o es (after es' move) := by
  intro q hq
  have hkeeps := h q hq
  rwa [List.append_assoc] at hkeeps

theorem carries_nil (h : q.Keeps o es) : Carries o es ([], .ok q) := by
  rintro q ⟨⟩
  rwa [List.append_nil]

theorem carries_one (h : q.Keeps o (es ++ [x])) : Carries o es ([x], .ok q) := by
  rintro q ⟨⟩
  exact h

theorem carries_two (h : q.Keeps o (es ++ [x] ++ [y])) : Carries o es ([x, y], .ok q) := by
  rintro q ⟨⟩
  rwa [List.append_assoc] at h

theorem carries_unexpected {l : Label} : Carries o es (unexpected l n ch) :=
  fun q hq => by cases hq

end Moves

section Parts

variable {f : Opening}

theorem keeps_node (h : Kept o es [] r .nothing) (hr : r.IsAddress) :
    (text (.node f) .none).Keeps o (es ++ [Event.entered .node n]) :=
  ⟨r, .segment [] none, h.quiet rfl rfl rfl rfl, rfl, hr⟩

theorem keeps_operation (h : Kept o es [] r .nothing) (hr : r.IsAddress) (hf : f.forwarded = 0) :
    (operation f).Keeps o (es ++ [Event.entered .operationName n]) :=
  ⟨r, .operation [], h.quiet rfl rfl rfl rfl, rfl, hr, hf.symm⟩

theorem keeps_list (h : Kept o es [] r .nothing) (hproperties : r.properties = none)
    (hredirect : r.redirect = none) : (list f).Keeps o (es ++ [Event.entered .propertyList n]) := by
  refine ⟨{ r with properties := some [] }, .nothing, h.quiet rfl rfl ?_ rfl, rfl, by simp,
    hredirect⟩
  simp [Request.chars, Request.texts, hproperties]

theorem keeps_redirect (h : Kept o es [] r .nothing) (hredirect : r.redirect = none) :
    (redirect f).Keeps o (es ++ [Event.entered .outputRedirect n]) :=
  ⟨r, .redirect .overwrite [], h.quiet rfl rfl rfl rfl, rfl, hredirect⟩

end Parts

theorem carries_endSegment {type : List (Char × Bool)} {name : Option (List (Char × Bool))}
    (h : Kept o es [.node] r (.segment type name)) (hr : r.IsAddress) :
    Carries o es (endSegment n ch) := by
  have hdone := Kept.finish (d := .segment type name) h hr (by simp [Draft.part]) n (some ch)
  unfold endSegment
  dsimp only
  split
  · exact carries_two (keeps_node hdone hr)
  split
  · exact carries_two (keeps_operation hdone hr rfl)
  split
  · exact carries_two (keeps_list hdone hr.2.1 hr.2.2)
  · exact carries_two (keeps_redirect hdone hr.2.2)

theorem carries_endList (h : Kept o es [.propertyList] r .nothing)
    (hproperties : r.properties ≠ none) (hredirect : r.redirect = none) :
    Carries o es (endList n ch) := by
  have hleft : Kept o (es ++ [Event.leaving .propertyList n (some ch)]) [] r .nothing :=
    h.quiet rfl rfl rfl rfl
  exact carries_two ⟨r, .nothing, hleft.quiet rfl rfl rfl rfl, rfl, hproperties, hredirect⟩

theorem carries_endProperty {f : Opening} {name : List (Char × Bool)}
    {value : Option (Nat × List (Char × Bool))}
    (h : Kept o es [.property, .propertyList] r (.property name value))
    (hr : r.properties ≠ none ∧ r.redirect = none) : Carries o es (endProperty n ch f) := by
  have hdone := Kept.finish (d := .property name value) h hr (by simp [Draft.part]) n (some ch)
  have hproperties : ((Draft.property name value).into o r).properties ≠ none := by
    simpa [Draft.into] using hr.1
  unfold endProperty
  dsimp only
  split
  · exact carries_two ⟨_, .property [] none, hdone.quiet rfl rfl rfl rfl, rfl, hproperties, hr.2⟩
  · exact (carries_endList hdone hproperties hr.2).after

theorem carries_onMark {w : Owner} (h : (text w .none).Keeps o es) :
    Carries o es (onMark n ch w) := by
  obtain ⟨r, d, hkept, hlabel, hfits⟩ := h
  cases w with
  | node f =>
    obtain ⟨type, rfl⟩ := Draft.isOf_of_label hlabel
    simp only [onMark]
    split
    · exact carries_one ⟨r, .segment type (some []), hkept.quiet rfl rfl rfl rfl, rfl, hfits⟩
    split
    · exact carries_unexpected
    · exact carries_endSegment hkept hfits
  | nodeName f g =>
    obtain ⟨type, name, rfl⟩ := Draft.isOf_of_label hlabel
    simp only [onMark]
    split
    · exact carries_unexpected
    split
    · exact carries_unexpected
    · have hleft : Kept o (es ++ [Event.leaving .nodeName n (some ch)]) [.node] r
          (.segment type (some name)) := hkept.quiet rfl rfl rfl rfl
      exact (carries_endSegment hleft hfits).after
  | property f g =>
    obtain ⟨name, rfl⟩ := Draft.isOf_of_label hlabel
    simp only [onMark]
    split
    · exact carries_one ⟨r, .property name (some (n, [])), hkept.quiet rfl rfl rfl rfl, rfl, hfits⟩
    · exact carries_endProperty hkept hfits
  | propertyValue f g v =>
    obtain ⟨name, value, rfl⟩ := Draft.isOf_of_label hlabel
    simp only [onMark]
    split
    · rename_i b hb
      have hentered := hkept.enter_literal (l := b.label) (by cases b <;> rfl) n
      have hgiven := hentered.give (l := b.label) ch n (by cases b <;> decide)
        (by cases b <;> decide) (by simp [Draft.label]) (by cases b <;> rfl)
      exact carries_two ⟨r, _, hgiven, Draft.label_add _ _, hfits⟩
    · have hleft : Kept o (es ++ [Event.leaving .propertyValue n (some ch)])
          [.property, .propertyList] r (.property name (some value)) :=
        hkept.quiet rfl rfl rfl rfl
      exact (carries_endProperty hleft hfits).after

theorem labels_counted (w : Owner) : (text w.counted .none).labels = (text w .none).labels := by
  cases w <;> rfl

theorem carries_onText {w : Owner} (h : (text w .none).Keeps o es) :
    Carries o es (onText o n ch w) := by
  obtain ⟨r, d, hkept, hlabel, hfits⟩ := id h
  unfold onText
  split
  · exact carries_nil h
  split
  · exact carries_one ⟨r, d, hkept.enter_literal (l := .quotes) rfl n, hlabel, hfits⟩
  split
  · exact carries_one ⟨r, d, hkept.enter_literal (l := .escape) rfl n, hlabel, hfits⟩
  split
  · exact carries_onMark h
  · have hgiven := hkept.give (l := w.label) ch n w.ne_initial (by cases w <;> simp [Owner.label])
      (hlabel ▸ w.ne_initial) (by rw [textOwner_text, hlabel, Owner.isLiteral_label]; rfl)
    refine carries_one ⟨r, d.add (ch, w.label.isLiteral), ?_, ?_, ?_⟩
    · rwa [labels_counted]
    · rw [Draft.label_add, hlabel]
      cases w <;> rfl
    · exact hfits.add

/-- A character inside a literal or behind a backslash. -/
theorem Keeps.give {w : Owner} {s : Shelter} {l : Label} (h : (text w s).Keeps o es)
    (hs : s ≠ .none) (hl : l.isLiteral = true) (ch : Char) (n : Nat) :
    (text w s).Keeps o (es ++ [Event.character l ch n]) := by
  obtain ⟨r, d, hkept, hlabel, hfits⟩ := h
  have hgiven := hkept.give (l := l) ch n (by rintro rfl; cases hl) (by rintro rfl; cases hl)
    (hlabel ▸ w.ne_initial) (by rw [textOwner_text, hlabel, hl]; simp [hs])
  exact ⟨r, _, hgiven, (Draft.label_add d _).trans hlabel, hfits.add⟩

theorem carries_onQuoted {w : Owner} {x : Opening} (h : (text w (.quotes x)).Keeps o es) :
    Carries o es (onQuoted o n ch w x) := by
  obtain ⟨r, d, hkept, hholds⟩ := id h
  unfold onQuoted
  split
  · exact carries_one ⟨r, d, hkept.leave_literal (l := .quotes) rfl n (some ch), hholds⟩
  split
  · exact carries_one ⟨r, d, hkept.enter_literal (l := .escape) rfl n, hholds⟩
  · exact carries_one (h.give (by simp) rfl ch n)

theorem carries_onEscaped {w : Owner} {s s' : Shelter} (h : (text w s).Keeps o es)
    (hs : s ≠ .none) (hlabels : (text w s).labels = .escape :: (text w s').labels) :
    Carries o es (onEscaped n ch w s') := by
  obtain ⟨r, d, hkept, hholds⟩ := h.give (l := .escape) hs rfl ch n
  rw [hlabels] at hkept
  exact carries_two ⟨r, d, hkept.leave_literal rfl n (some ch), hholds⟩

theorem carries_onLiteral {f g v k : Opening} {b : Bracket} {depth : Nat}
    (h : (literal f g v b k depth).Keeps o es) :
    Carries o es (onLiteral n ch f g v b k depth) := by
  obtain ⟨r, d, hkept, hlabel, hfits⟩ := h
  have hgiven := hkept.give (l := b.label) ch n (by cases b <;> decide) (by cases b <;> decide)
    (by simp [hlabel]) (by rw [hlabel]; cases b <;> rfl)
  have hadd := (Draft.label_add d (ch, b.label.isLiteral)).trans hlabel
  unfold onLiteral
  split
  · exact carries_one ⟨r, _, hgiven, hadd, hfits.add⟩
  split
  · split
    · exact carries_one ⟨r, _, hgiven, hadd, hfits.add⟩
    · have hleft : Kept o _ (text (.propertyValue f g v) .none).labels r _ :=
        hgiven.leave_literal (l := b.label) (by cases b <;> rfl) n (some ch)
      exact carries_two ⟨r, _, hleft, hadd, hfits.add⟩
  · exact carries_one ⟨r, _, hgiven, hadd, hfits.add⟩

theorem carries_onOperation {f : Opening} (h : (operation f).Keeps o es) :
    Carries o es (onOperation o n ch f) := by
  obtain ⟨r, d, hkept, hlabel, hfits, hlength⟩ := id h
  obtain ⟨name, rfl⟩ := Draft.isOf_of_label hlabel
  have hdone := Kept.finish (d := .operation name) hkept hfits (by simp [Draft.part]) n (some ch)
  have hinto := Draft.into_operation o r name
  unfold onOperation endOperation
  dsimp only
  split
  · exact carries_nil h
  split
  · split
    · exact fun q hq => by cases hq
    · exact carries_two (keeps_list hdone (hinto.1.trans hfits.2.1) (hinto.2.trans hfits.2.2))
  split
  · split
    · exact fun q hq => by cases hq
    · exact carries_two (keeps_redirect hdone (hinto.2.trans hfits.2.2))
  split
  · exact carries_unexpected
  · have hgiven := hkept.give (l := .operationName) ch n (by simp) (by simp)
      (by simp [Draft.label]) rfl
    refine carries_one ⟨r, _, hgiven, rfl, hfits, ?_⟩
    simpa [Draft.add, Draft.chars, Opening.counted] using hlength

theorem carries_onTarget {f g : Opening} (h : (target f g).Keeps o es) :
    Carries o es (onTarget o n ch f g) := by
  obtain ⟨r, d, hkept, hlabel, hfits⟩ := id h
  unfold onTarget
  split
  · exact carries_nil h
  · have hgiven := hkept.give (l := .outputTarget) ch n (by simp) (by simp) (by simp [hlabel])
      (by rw [hlabel]; rfl)
    exact carries_one ⟨r, _, hgiven, (Draft.label_add d _).trans hlabel, hfits.add⟩

theorem carries_redirect {f : Opening} (h : (redirect f).Keeps o es) :
    Carries o es (next o n ch (.redirect f)) := by
  obtain ⟨r, d, hkept, hlabel, hfits⟩ := h
  obtain ⟨mode, target, rfl⟩ := Draft.isOf_of_label hlabel
  simp only [next]
  split
  · split
    · have hfollow : ((Draft.redirect mode target).onto o [.outputRedirect] r).follow
          (.character .outputRedirect ch n)
            = (Draft.redirect .append target).onto o [.outputRedirect] r := by
        have howner : textOwner ((Draft.redirect mode target).onto o [.outputRedirect] r).stack
            = some (.outputRedirect, false) := rfl
        rw [Collector.follow_character (by simp) howner]
        rfl
      exact carries_one ⟨r, .redirect .append target, hkept.quiet rfl hfollow rfl rfl, rfl, hfits⟩
    · exact carries_unexpected
  · have hentered : Kept o (es ++ [Event.entered .outputTarget n])
        [.outputTarget, .outputRedirect] r (.redirect mode target) := hkept.quiet rfl rfl rfl rfl
    exact Carries.after (carries_onTarget ⟨r, .redirect mode target, hentered, rfl, hfits⟩)

theorem carries_start (h : start.Keeps o es) : Carries o es (next o n ch .start) := by
  obtain ⟨r, d, hkept, rfl, hr⟩ := id h
  simp only [next]
  split
  · exact carries_nil h
  split
  · have hroot : Kept o (es ++ [Event.character .initial ch n]) [] { r with absolute := true }
        .nothing := by
      refine hkept.quiet rfl ?_ rfl rfl
      change (Collector.take _ .initial ch).plain = _
      rw [Collector.take_eq, if_pos rfl]
      unfold Collector.seen
      split <;> rfl
    exact carries_two (keeps_node hroot hr)
  split
  · exact carries_one (keeps_operation hkept hr rfl)
  split
  · exact carries_one (keeps_list hkept hr.2.1 hr.2.2)
  split
  · exact carries_one (keeps_redirect hkept hr.2.2)
  · exact (carries_onText (keeps_node hkept hr)).after

/-- No character makes the collector lose a text, at whatever place it stands. -/
theorem carries_next (h : p.Keeps o es) : Carries o es (p.next o n ch) := by
  cases p with
  | start => exact carries_start h
  | text w s =>
    cases s with
    | none => exact carries_onText h
    | escape e => exact carries_onEscaped h (by simp) rfl
    | quotes x => exact carries_onQuoted h
    | quotesEscape x e => exact carries_onEscaped h (by simp) rfl
  | literal f g v b k depth => exact carries_onLiteral h
  | operation f => exact carries_onOperation h
  | list f =>
    obtain ⟨r, d, hkept, rfl, hproperties, hredirect⟩ := id h
    simp only [next]
    split
    · exact carries_nil h
    split
    · exact carries_endList hkept hproperties hredirect
    · have hentered : Kept o (es ++ [Event.entered .property n]) [.property, .propertyList] r
          (.property [] none) := hkept.quiet rfl rfl rfl rfl
      exact Carries.after (carries_onText (w := .property f _)
        ⟨r, _, hentered, rfl, hproperties, hredirect⟩)
  | requestEnd f =>
    obtain ⟨r, d, hkept, rfl, -, hredirect⟩ := id h
    simp only [next]
    split
    · exact carries_nil h
    split
    · have hleft : Kept o (es ++ [Event.leaving .requestEnd n (some ch)]) [] r .nothing :=
        hkept.quiet rfl rfl rfl rfl
      exact carries_two (keeps_redirect hleft hredirect)
    · exact carries_unexpected
  | redirect f => exact carries_redirect h
  | target f g => exact carries_onTarget h

theorem keeps_feed {cs : List Char} {es' : List Event} (h : p.Keeps o es)
    (hfeed : p.feed o n cs = (es', .ok q)) : q.Keeps o (es ++ es') := by
  refine feed_invariant (fun _ es p => p.Keeps o es) n (fun h hnext => ?_) [] es h hfeed
  have hstep := carries_next h _ (congrArg Prod.snd hnext)
  rwa [hnext] at hstep

theorem keeps_start (o : Options) : start.Keeps o [] :=
  ⟨{}, .nothing, .nil o, rfl, rfl, rfl, rfl⟩

/-- The end of a line brings in the part that was read last. -/
theorem settles_finish (hkept : Kept o es p.labels r d) (hholds : p.Holds r d)
    (hok : (p.finish o n).2 = none) : Settles o (es ++ (p.finish o n).1) (d.into o r) := by
  cases p with
  | start =>
    obtain ⟨rfl, -⟩ := hholds
    rw [finish, List.append_nil]
    exact hkept.settles
  | text w s =>
    obtain ⟨hlabel, hfits⟩ := hholds
    cases s with
    | none =>
      cases w with
      | node f =>
        obtain ⟨type, rfl⟩ := Draft.isOf_of_label hlabel
        exact Kept.settle (d := .segment type none) hkept hfits n none
      | nodeName f g =>
        obtain ⟨type, name, rfl⟩ := Draft.isOf_of_label hlabel
        have hleft : Kept o (es ++ [Event.leaving .nodeName n none]) [.node] r
            (.segment type (some name)) := hkept.quiet rfl rfl rfl rfl
        have hdone := Kept.settle (d := .segment type (some name)) hleft hfits n none
        rwa [List.append_assoc] at hdone
      | property f g => cases hok
      | propertyValue f g v => cases hok
    | escape e => cases hok
    | quotes x => cases hok
    | quotesEscape x e => cases hok
  | literal f g v b k depth =>
    simp only [finish] at hok
    split at hok <;> cases hok
  | operation f =>
    obtain ⟨hlabel, hfits, -⟩ := hholds
    obtain ⟨name, rfl⟩ := Draft.isOf_of_label hlabel
    exact Kept.settle (d := .operation name) hkept hfits n none
  | list f => cases hok
  | requestEnd f =>
    obtain ⟨rfl, -⟩ := hholds
    have hleft : Kept o (es ++ [Event.leaving .requestEnd n none]) [] r .nothing :=
      hkept.quiet rfl rfl rfl rfl
    exact hleft.settles
  | redirect f => cases hok
  | target f g =>
    obtain ⟨hlabel, hfits⟩ := hholds
    obtain ⟨mode, target, rfl⟩ := Draft.isOf_of_label hlabel
    simp only [finish] at hok ⊢
    split at hok
    · cases hok
    · rename_i hsome
      have hleft : Kept o (es ++ [Event.leaving .outputTarget n none]) [.outputRedirect] r
          (.redirect mode target) := hkept.quiet rfl rfl rfl rfl
      have hdone := Kept.settle (d := .redirect mode target) hleft hfits n none
      rw [List.append_assoc] at hdone
      rw [if_neg hsome]
      exact hdone

/-- An accepted line is read to its end. -/
theorem exists_feed_of_read {cs : List Char} (h : (p.read o n cs).2 = none) :
    ∃ es q, p.feed o n cs = (es, .ok q)
      ∧ p.read o n cs = delay es (q.finish o (n + Text.byteSize cs)) := by
  rcases hfeed : p.feed o n cs with ⟨es, e | q⟩
  · rw [read, hfeed] at h
    cases h
  · exact ⟨es, q, rfl, by rw [read, hfeed]⟩

/-- An accepted line leaves its request in a collector, and nothing else but a mode. -/
theorem settles_read {line : String} {r : Request} (h : Request.parse o line = .ok r) :
    Settles o (read o 0 line.toList .start).1 r := by
  obtain ⟨hok, hr⟩ := Request.parse_eq_ok_iff_follow.mp h
  obtain ⟨es, q, hfeed, hread⟩ := exists_feed_of_read hok
  rw [hread] at hok hr ⊢
  obtain ⟨r', d, hkept, hholds⟩ : q.Keeps o ([] ++ es) := keeps_feed (keeps_start o) hfeed
  have hsettles := settles_finish hkept hholds hok
  obtain rfl : r = d.into o r' := hr.symm.trans hsettles.request
  exact hsettles

end Place

/-- The texts of an accepted line's request are the characters that were passed on for them, one
after the other. None but blanks that stood outside of literals are missing. -/
theorem texts_conserved {o : Options} {line : String} {r : Request}
    (h : Request.parse o line = .ok r) :
    Text.Thins o.isBlank
      ((Request.run o Sink.record line #[]).consumer.toList.filterMap Event.given?)
      (r.texts.flatMap String.toList) := by
  rw [(Request.run_record o line).1]
  exact (Place.settles_read h).thins

/-- The blank in the quotes stays, the one after the name goes. -/
theorem texts_conserved_of_quoted_blank :
    let r : Request :=
      { address := [.node ⟨"x ", some "y"⟩], redirect := some ⟨.overwrite, "z"⟩ }
    Request.parse {} "\"x \"=y >z" = .ok r
      ∧ Text.Thins Text.isPlainBlank
        [('x', true), (' ', true), ('y', false), (' ', false), ('z', false)]
        (r.texts.flatMap String.toList) := by
  intro r
  have hparse : Request.parse {} "\"x \"=y >z" = .ok r := by decide +kernel
  have hgiven : (Request.run {} Sink.record "\"x \"=y >z" #[]).consumer.toList.filterMap
      Event.given? = [('x', true), (' ', true), ('y', false), (' ', false), ('z', false)] := by
    decide +kernel
  have hthins := texts_conserved hparse
  rw [hgiven] at hthins
  exact ⟨hparse, hthins⟩

end RequestLine
