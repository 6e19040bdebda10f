import RequestLine.Proofs.Acceptance

/-!
# Viable prefixes

A line is a viable prefix if more characters can make it a request. The error of a line tells: an
error at a character was there before anything that could follow, so it stays
(`Place.read_append_of_found`), and an error at the end of the line is about something that can
still come, since something may be left to read at every place (`Grammar.exists_mem_rest`).
-/

open scoped Computability

namespace RequestLine

namespace Place

section Found

variable {o : Options} {n : Nat} {ch : Char} {p : Place} {es : List Event} {e : ParseError}

theorem found_of_endOperation {f : Opening} {l : Label} {q : Place}
    (h : endOperation n ch f l q = (es, .error e)) : e.found = some ch := by
  unfold endOperation at h
  split at h
  · obtain ⟨-, rfl⟩ := h
    rfl
  · cases h

theorem found_of_onMark {w : Owner} (h : onMark n ch w = (es, .error e)) : e.found = some ch := by
  cases w <;> simp only [onMark, endSegment, endProperty, endList, unexpected, after] at h <;>
    grind

theorem found_of_onText {w : Owner} (h : onText o n ch w = (es, .error e)) :
    e.found = some ch := by
  unfold onText at h
  repeat' split at h
  all_goals first | cases h | exact found_of_onMark h

theorem found_of_after {es' : List Event} {move : Move} {x : Option Char}
    (hmove : ∀ {es : List Event}, move = (es, .error e) → e.found = x)
    (h : after es' move = (es, .error e)) : e.found = x :=
  hmove (Prod.ext rfl (Prod.ext_iff.mp h).2)

/-- A character that is not allowed is named in the error. -/
theorem found_of_next (h : p.next o n ch = (es, .error e)) : e.found = some ch := by
  cases p with
  | start =>
    simp only [next] at h
    repeat' split at h
    all_goals first | cases h | exact found_of_after found_of_onText h
  | text w s =>
    cases s with
    | none => exact found_of_onText h
    | escape e => cases h
    | quotes q =>
      simp only [next, onQuoted] at h
      repeat' split at h
      all_goals cases h
    | quotesEscape q e => cases h
  | literal f g v b q depth =>
    simp only [next, onLiteral] at h
    repeat' split at h
    all_goals cases h
  | operation f =>
    simp only [next, onOperation] at h
    repeat' split at h
    · cases h
    · exact found_of_endOperation h
    · exact found_of_endOperation h
    · cases h
      rfl
    · cases h
  | list f =>
    simp only [next] at h
    repeat' split at h
    · cases h
    · cases h
    · exact found_of_after found_of_onText h
  | requestEnd f =>
    simp only [next] at h
    repeat' split at h
    · cases h
    · cases h
    · cases h
      rfl
  | redirect f =>
    simp only [next, onTarget] at h
    repeat' split at h
    · cases h
    · cases h
      rfl
    · cases h
    · cases h
  | target f g =>
    simp only [next, onTarget] at h
    split at h
    · cases h
    · cases h

theorem found_of_feed {cs : List Char} (h : p.feed o n cs = (es, .error e)) :
    e.found ≠ none := by
  induction cs generalizing n p es with
  | nil => cases h
  | cons ch cs ih =>
    simp only [feed] at h
    split at h
    · rename_i hnext
      obtain ⟨rfl, rfl⟩ := h
      rw [found_of_next hnext]
      simp
    · exact ih (Prod.ext rfl (Prod.ext_iff.mp h).2)

theorem found_of_finishList {f : Opening} {ls : List Label}
    (h : (finishList n f ls).2 = some e) : e.found = none := by
  obtain rfl := Option.some.inj h
  rfl

theorem found_of_cutOff {cause : Cause} {l : Label} (h : (cutOff cause n l).2 = some e) :
    e.found = none := by
  obtain rfl := Option.some.inj h
  rfl

/-- The end of the line is named in an error that it causes. -/
theorem found_of_finish (h : (p.finish o n).2 = some e) : e.found = none := by
  cases p with
  | start => cases h
  | text w s =>
    cases s with
    | none =>
      cases w with
      | node f => cases h
      | nodeName f g => cases h
      | property f g => exact found_of_finishList h
      | propertyValue f g v => exact found_of_finishList h
    | escape x => exact found_of_cutOff h
    | quotes q => exact found_of_cutOff h
    | quotesEscape q x => exact found_of_cutOff h
  | literal f g v b q depth =>
    simp only [finish] at h
    split at h
    · exact found_of_finishList h
    · exact found_of_cutOff h
  | operation f =>
    simp only [finish] at h
    split at h
    · obtain rfl := Option.some.inj h
      rfl
    · cases h
  | list f => exact found_of_finishList h
  | requestEnd f => cases h
  | redirect f => exact found_of_cutOff h
  | target f g =>
    simp only [finish] at h
    split at h
    · exact found_of_cutOff h
    · cases h

/-- An error at a character stays, whatever follows. -/
theorem read_append_of_found {xs : List Char} {ch : Char} (h : (p.read o n xs).2 = some e)
    (he : e.found = some ch) (ys : List Char) : (p.read o n (xs ++ ys)).2 = some e := by
  rcases hfeed : p.feed o n xs with ⟨es₁, e₁ | q⟩
  · rw [read, hfeed] at h
    rw [read, feed_append_of_error hfeed]
    exact h
  · rw [read, hfeed] at h
    rw [found_of_finish h] at he
    cases he

/-- A line that does not fail at a character leaves a place to go on from. -/
theorem feed_of_found_none {xs : List Char}
    (h : ∀ e, (p.read o n xs).2 = some e → e.found = none) :
    ∃ es q, p.feed o n xs = (es, .ok q) := by
  rcases hfeed : p.feed o n xs with ⟨es₁, e₁ | q⟩
  · rw [read, hfeed] at h
    exact absurd (h e₁ rfl) (found_of_feed hfeed)
  · exact ⟨es₁, q, rfl⟩

end Found

end Place

namespace Grammar

variable {o : Options}

theorem exists_mem_mul {l m : Language Char} (hl : ∃ v, v ∈ l) (hm : ∃ v, v ∈ m) :
    ∃ v, v ∈ l * m := by
  obtain ⟨x, hx⟩ := hl
  obtain ⟨y, hy⟩ := hm
  exact ⟨x ++ y, Language.append_mem_mul hx hy⟩

theorem exists_mem_kstar (l : Language Char) : ∃ v, v ∈ l∗ :=
  ⟨[], Language.nil_mem_kstar l⟩

theorem exists_mem_one {P : Char → Prop} {c : Char} (hc : P c) : ∃ v, v ∈ one P :=
  ⟨[c], c, hc, rfl⟩

theorem exists_mem_afterOperation : ∃ v, v ∈ afterOperation o :=
  ⟨[], afterOperation_of_afterList nil_mem_afterList⟩

theorem exists_mem_afterProperty : ∃ v, v ∈ afterProperty o :=
  exists_mem_mul (exists_mem_kstar _)
    (exists_mem_mul (exists_mem_one rfl) ⟨[], nil_mem_afterList⟩)

theorem exists_mem_text (w : Owner) : ∃ v, v ∈ textRest o w * afterText o w := by
  have hsegment : ∃ v, v ∈ afterSegment o :=
    exists_mem_mul (exists_mem_kstar _) (exists_mem_mul ⟨[], nil_mem_maybe⟩
      exists_mem_afterOperation)
  cases w with
  | node f =>
    exact exists_mem_mul (exists_mem_kstar _) (exists_mem_mul ⟨[], nil_mem_maybe⟩ hsegment)
  | nodeName f g => exact exists_mem_mul (exists_mem_kstar _) hsegment
  | property f g =>
    exact exists_mem_mul (exists_mem_kstar _)
      (exists_mem_mul ⟨[], nil_mem_maybe⟩ exists_mem_afterProperty)
  | propertyValue f g v => exact exists_mem_mul (exists_mem_kstar _) exists_mem_afterProperty

theorem exists_mem_quotedRest : ∃ v, v ∈ quotedRest o :=
  exists_mem_mul (exists_mem_kstar _) (exists_mem_one rfl)

theorem exists_mem_closing (b : Bracket) (depth : Nat) : ∃ v, v ∈ closing b depth := by
  have hone : ∃ v, v ∈ balanced b * mark b.closer :=
    exists_mem_mul ⟨[], .nil⟩ (exists_mem_one rfl)
  induction depth with
  | zero => exact hone
  | succ depth ih => exact exists_mem_mul hone ih

theorem isBlank_x : o.isBlank 'x' = false := by
  unfold Options.isBlank
  split <;> decide

/-- Something may be left to read at every place. -/
theorem exists_mem_rest (p : Place) : ∃ v, v ∈ rest o p := by
  have hany : ∃ v, v ∈ one fun _ => True := exists_mem_one (c := 'x') trivial
  have htarget : ∃ v, v ∈ target o := ⟨['x'], by decide, 'x', List.mem_cons_self, isBlank_x⟩
  cases p with
  | start => exact ⟨[], (nil_mem_rest 0 .start).mpr rfl⟩
  | text w s =>
    cases s with
    | none => exact exists_mem_text w
    | escape e => exact exists_mem_mul hany (exists_mem_text w)
    | quotes q => exact exists_mem_mul exists_mem_quotedRest (exists_mem_text w)
    | quotesEscape q e =>
      exact exists_mem_mul hany (exists_mem_mul exists_mem_quotedRest (exists_mem_text w))
  | literal f g v b q depth =>
    exact exists_mem_mul (exists_mem_closing b depth)
      (exists_mem_mul (exists_mem_kstar _) exists_mem_afterProperty)
  | operation f =>
    refine exists_mem_mul ?_ exists_mem_afterOperation
    split
    · exact ⟨['x'], by simp [OperationChar], 'x', List.mem_cons_self, isBlank_x⟩
    · exact exists_mem_kstar _
  | list f =>
    exact exists_mem_mul (exists_mem_mul (exists_mem_kstar _) ⟨[], nil_mem_maybe⟩)
      exists_mem_afterProperty
  | requestEnd f => exact ⟨[], nil_mem_afterList⟩
  | redirect f =>
    refine exists_mem_mul ?_ htarget
    split
    · exact ⟨[], nil_mem_maybe⟩
    · exact ⟨[], rfl⟩
  | target f g =>
    rw [rest]
    split
    · exact ⟨['x'], 'x', List.mem_cons_self, isBlank_x⟩
    · exact exists_mem_kstar _

/-- An error at the end of a line goes away when the right characters follow. -/
theorem exists_read_append_of_found_none {n : Nat} {xs : List Char} {p : Place} {e : ParseError}
    (h : (p.read o n xs).2 = some e) (he : e.found = none) :
    ∃ ys, (p.read o n (xs ++ ys)).2 = none := by
  obtain ⟨es, q, hfeed⟩ := Place.feed_of_found_none fun e' he' => by
    rw [h] at he'
    exact Option.some.inj he' ▸ he
  obtain ⟨ys, hys⟩ := exists_mem_rest (o := o) q
  refine ⟨ys, ?_⟩
  rw [Place.read_append hfeed]
  exact (read_accepts _ ys q).mpr hys

end Grammar

/-- The error that a run ended with. -/
def Stop.error? : Stop → Option ParseError
  | failed e => some e
  | fatal e => some e
  | exhausted => none

theorem Place.verdict_eq_error_iff {o : Options} {e? : Option ParseError} {stop : Stop} :
    Place.verdict o e? = .error stop ↔
      ∃ e, e? = some e ∧ stop = if o.fatalErrors then .fatal e else .failed e := by
  cases e? with
  | none => simp [Place.verdict]
  | some e =>
    simp only [Place.verdict, Except.error.injEq, Option.some.injEq, exists_eq_left']
    exact eq_comm

theorem Place.exists_stop_of_error (o : Options) (e : ParseError) :
    ∃ stop, Place.verdict o (some e) = .error stop ∧ stop.error? = some e := by
  refine ⟨_, verdict_eq_error_iff.mpr ⟨e, rfl, rfl⟩, ?_⟩
  split <;> rfl

theorem Stop.error?_of_verdict {o : Options} {e? : Option ParseError} {stop : Stop} {e : ParseError}
    (h : Place.verdict o e? = .error stop) (he : stop.error? = some e) : e? = some e := by
  obtain ⟨e', rfl, rfl⟩ := Place.verdict_eq_error_iff.mp h
  split at he
  · exact he
  · exact he

/-- A line can be continued to a request if and only if it is one or its error is at its end. An
error at a character is the error of every continuation. -/
theorem viable_iff_ok_or_found_none {σ : Type} {S : Sink σ} (o : Options) (hS : S.Accepting)
    (line : String) (s : σ) :
    ((∃ t, (Request.run o S (line ++ t) s).outcome = .ok ()) ↔
        (Request.run o S line s).outcome = .ok () ∨
          ∃ stop e, (Request.run o S line s).outcome = .error stop ∧ stop.error? = some e
            ∧ e.found = none)
      ∧ (∀ stop e ch, (Request.run o S line s).outcome = .error stop → stop.error? = some e →
          e.found = some ch → ∀ t, (Request.run o S (line ++ t) s).outcome = .error stop)
      ∧ ∀ stop e, (Request.run o S line s).outcome = .error stop → stop.error? = some e →
          e.found = none → ∃ t, (Request.run o S (line ++ t) s).outcome = .ok () := by
  simp only [Request.outcome_of_accepting o hS, String.toList_append]
  have hstays : ∀ stop e ch,
      Place.verdict o (Place.read o 0 line.toList .start).2 = .error stop → stop.error? = some e →
      e.found = some ch → ∀ t : String,
      Place.verdict o (Place.read o 0 (line.toList ++ t.toList) .start).2 = .error stop := by
    intro stop e ch hline he hch t
    have hread := Stop.error?_of_verdict hline he
    rw [Place.read_append_of_found hread hch, ← hread, hline]
  have hrepair : ∀ stop e,
      Place.verdict o (Place.read o 0 line.toList .start).2 = .error stop → stop.error? = some e →
      e.found = none → ∃ t : String,
      Place.verdict o (Place.read o 0 (line.toList ++ t.toList) .start).2 = .ok () := by
    intro stop e hline he hnone
    obtain ⟨ys, hys⟩ := Grammar.exists_read_append_of_found_none
      (Stop.error?_of_verdict hline he) hnone
    exact ⟨String.ofList ys, by rw [String.toList_ofList, hys]; rfl⟩
  refine ⟨⟨?_, ?_⟩, hstays, hrepair⟩
  · rintro ⟨t, ht⟩
    rcases hread : (Place.read o 0 line.toList .start).2 with _ | e
    · exact .inl rfl
    · refine .inr ⟨_, e, rfl, by split <;> rfl, ?_⟩
      rcases hfound : e.found with _ | ch
      · rfl
      · rw [Place.read_append_of_found hread hfound] at ht
        cases ht
  · rintro (hok | ⟨stop, e, hline, he, hnone⟩)
    · exact ⟨"", by rw [String.toList_empty, List.append_nil, hok]⟩
    · exact hrepair stop e hline he hnone

/-- A value that is cut off can be completed, a parenthesis in a name cannot be. -/
theorem viable_open_literal :
    (∃ t, (Request.run {} Sink.ignore ("a(b=[c" ++ t) ()).outcome = .ok ())
      ∧ ∀ t, (Request.run {} Sink.ignore ("a=b)" ++ t) ()).outcome ≠ .ok () := by
  have hopen : (Request.run {} Sink.ignore "a(b=[c" ()).outcome
      = .error (.failed ⟨.unmatchedBracket '[', 4, .brackets, none⟩) := by decide +kernel
  have hparen : (Request.run {} Sink.ignore "a=b)" ()).outcome
      = .error (.failed ⟨.unexpectedCharacter, 3, .nodeName, some ')'⟩) := by decide +kernel
  refine ⟨(viable_iff_ok_or_found_none {} Sink.ignore_accepting "a(b=[c" ()).2.2 _ _ hopen rfl rfl,
    fun t ht => ?_⟩
  rw [(viable_iff_ok_or_found_none {} Sink.ignore_accepting "a=b)" ()).2.1 _ _ _ hparen rfl rfl t]
    at ht
  cases ht

end RequestLine
