import RequestLine.Proofs.Drafting
import RequestLine.Proofs.Separation
import RequestLine.Proofs.Shifting

/-!
# Bracket literals

A bracket literal ends at the closer that matches its opener, that is where both have been read
equally often for the first time: the depth of its state is one less than the number by which the
openers are ahead (`Place.literal_cases`). All of it is passed on by that one state and stands in
the value of the property around it (`Progress.Carries`).
-/

namespace RequestLine

namespace Bracket

/-- However far one reads, more openers have come than closers. -/
def Ahead (b : Bracket) (cs : List Char) : Prop :=
  ∀ xs, xs <+: cs → xs ≠ [] → xs.count b.closer < xs.count b.opener

/-- The last character is the closer that matches the opener at the beginning. -/
structure Encloses (b : Bracket) (literal : List Char) : Prop where
  level : literal.count b.closer = literal.count b.opener
  ahead : b.Ahead literal.dropLast

/-- The literal with the characters between its brackets. -/
def literal (b : Bracket) (body : List Char) : List Char :=
  b.opener :: body ++ [b.closer]

/-- What happens in a literal that begins at `m`. -/
def events (b : Bracket) (m : Nat) (body : List Char) : List Event :=
  .entered b.label m :: passes b.label m (b.literal body)
    ++ [.leaving b.label (m + Text.byteSize (b.opener :: body)) b.closer]

variable {b : Bracket} {cs : List Char} {depth : Nat}

theorem count_opener_cons (cs : List Char) :
    (b.opener :: cs).count b.opener = cs.count b.opener + 1
      ∧ (b.opener :: cs).count b.closer = cs.count b.closer := by
  rw [List.count_cons_self, List.count_cons_of_ne b.opener_ne_closer]
  exact ⟨rfl, rfl⟩

theorem count_closer_cons (cs : List Char) :
    (b.closer :: cs).count b.opener = cs.count b.opener
      ∧ (b.closer :: cs).count b.closer = cs.count b.closer + 1 := by
  rw [List.count_cons_self, List.count_cons_of_ne b.opener_ne_closer.symm]
  exact ⟨rfl, rfl⟩

/-- In a literal with `depth` nested ones open the closers do not get further ahead. -/
def Within (b : Bracket) (depth : Nat) (cs : List Char) : Prop :=
  ∀ xs, xs <+: cs → xs.count b.closer ≤ xs.count b.opener + depth

theorem Within.nil : b.Within depth [] := by
  intro xs hxs
  rw [List.prefix_nil.mp hxs]
  simp

theorem Within.cons {ch : Char} {depth' : Nat} (h : b.Within depth' cs)
    (hcount : ∀ xs : List Char, (ch :: xs).count b.closer + xs.count b.opener + depth'
      = (ch :: xs).count b.opener + xs.count b.closer + depth) : b.Within depth (ch :: cs) := by
  intro xs hxs
  rcases List.prefix_cons_iff.mp hxs with rfl | ⟨ys, rfl, hys⟩
  · simp
  · have hle := h ys hys
    have heq := hcount ys
    omega

theorem Within.ahead (h : b.Within 0 cs) : b.Ahead (b.opener :: cs) := by
  intro xs hxs hne
  rcases List.prefix_cons_iff.mp hxs with rfl | ⟨ys, rfl, hys⟩
  · exact absurd rfl hne
  · have hle := h ys hys
    obtain ⟨hopener, hcloser⟩ := b.count_opener_cons ys
    omega

end Bracket

/-- The event opens a bracket literal. -/
def Event.opensBracket : Event → Bool
  | .entered l _ => l ∈ [Label.brackets, .braces, .parens]
  | _ => false

theorem Bracket.opensBracket (b : Bracket) (n : Nat) :
    (Event.entered b.label n).opensBracket = true := by
  cases b <;> rfl

namespace Place

variable {o : Options} {n : Nat} {ch : Char} {p q : Place} {es : List Event}
  {f g v k : Opening} {b : Bracket} {depth : Nat}

/-- How a character changes the depth of a literal that it does not close. -/
theorem literal_next_cases (o : Options) (n : Nat) (ch : Char) (f g v k : Opening) (b : Bracket)
    (depth : Nat) :
    (ch = b.closer ∧ depth = 0
      ∧ next o n ch (literal f g v b k depth)
        = ([.character b.label ch n, .leaving b.label n (some ch)],
          .ok (.text (.propertyValue f g v) .none)))
    ∨ ∃ depth', next o n ch (literal f g v b k depth)
        = ([.character b.label ch n], .ok (literal f g v b k.counted depth'))
      ∧ ∀ xs : List Char, (ch :: xs).count b.closer + xs.count b.opener + depth'
        = (ch :: xs).count b.opener + xs.count b.closer + depth := by
  simp only [next, onLiteral]
  by_cases hopener : ch = b.opener
  · refine .inr ⟨depth + 1, by rw [if_pos hopener], fun xs => ?_⟩
    subst hopener
    obtain ⟨ho, hc⟩ := b.count_opener_cons xs
    omega
  rw [if_neg hopener]
  by_cases hcloser : ch = b.closer
  · rw [if_pos hcloser]
    by_cases hdepth : 0 < depth
    · refine .inr ⟨depth - 1, by rw [if_pos hdepth], fun xs => ?_⟩
      subst hcloser
      obtain ⟨ho, hc⟩ := b.count_closer_cons xs
      omega
    · exact .inl ⟨hcloser, by omega, by rw [if_neg hdepth]⟩
  · refine .inr ⟨depth, by rw [if_neg hcloser], fun xs => ?_⟩
    rw [List.count_cons_of_ne hopener, List.count_cons_of_ne hcloser]
    omega

/-- A literal ends where the closers would get further ahead than the nested ones allow, or the line
ends in it. -/
theorem literal_cases (o : Options) (n : Nat) (cs : List Char) (k : Opening) (depth : Nat) :
    (∃ body rest, cs = body ++ b.closer :: rest
      ∧ body.count b.closer = body.count b.opener + depth ∧ b.Within depth body
      ∧ feed o n (body ++ [b.closer]) (literal f g v b k depth)
        = (passes b.label n (body ++ [b.closer])
            ++ [Event.leaving b.label (n + Text.byteSize body) (some b.closer)],
          .ok (.text (.propertyValue f g v) .none)))
    ∨ b.Within depth cs ∧ ∃ k' depth', k'.offset = k.offset ∧ k'.opener = k.opener
      ∧ feed o n cs (literal f g v b k depth)
        = (passes b.label n cs, .ok (literal f g v b k' depth')) := by
  induction cs generalizing n k depth with
  | nil => exact .inr ⟨.nil, k, depth, rfl, rfl, rfl⟩
  | cons ch cs ih =>
    rcases literal_next_cases o n ch f g v k b depth with
      ⟨rfl, rfl, hnext⟩ | ⟨depth', hnext, hcount⟩
    · exact .inl ⟨[], cs, rfl, rfl, .nil, by simp [feed, hnext, after, passes]⟩
    rcases ih (n + ch.utf8Size) k.counted depth' with
      ⟨body, rest, rfl, hlevel, hwithin, hfeed⟩ | ⟨hwithin, k', d, hoffset, hopener, hfeed⟩
    · refine .inl ⟨ch :: body, rest, rfl, ?_, hwithin.cons hcount, ?_⟩
      · have heq := hcount body
        omega
      · simp only [List.cons_append, feed, hnext, hfeed, after, passes, List.nil_append,
          Text.byteSize_cons, Nat.add_assoc]
    · refine .inr ⟨hwithin.cons hcount, k', d, hoffset, hopener, ?_⟩
      simp only [feed, hnext, hfeed, after, passes, List.cons_append, List.nil_append]

theorem opensNone_after {x : Event} {move : Move} (hx : x.opensBracket = false)
    (h : move.1.any Event.opensBracket = false) :
    (after [x] move).1.any Event.opensBracket = false := by
  simp only [after, List.singleton_append, List.any_cons, hx, h, Bool.or_false]

theorem opensNone_endSegment : (endSegment n ch).1.any Event.opensBracket = false := by
  unfold endSegment
  repeat' split
  all_goals rfl

theorem opensNone_endProperty : (endProperty n ch f).1.any Event.opensBracket = false := by
  unfold endProperty
  split <;> rfl

theorem opensNone_onMark {w : Owner} (hw : w.label ≠ .propertyValue ∨ Bracket.ofOpener? ch = none) :
    (onMark n ch w).1.any Event.opensBracket = false := by
  cases w with
  | node f =>
    simp only [onMark]
    repeat' split
    · rfl
    · rfl
    · exact opensNone_endSegment
  | nodeName f g =>
    simp only [onMark]
    repeat' split
    · rfl
    · rfl
    · exact opensNone_after rfl opensNone_endSegment
  | property f g =>
    simp only [onMark]
    split
    · rfl
    · exact opensNone_endProperty
  | propertyValue f g v =>
    obtain hnone := hw.resolve_left fun h => h rfl
    simp only [onMark, hnone]
    exact opensNone_after rfl opensNone_endProperty

theorem opensNone_onText {w : Owner} (hw : w.label ≠ .propertyValue ∨ Bracket.ofOpener? ch = none) :
    (onText o n ch w).1.any Event.opensBracket = false := by
  unfold onText
  repeat' split
  · rfl
  · rfl
  · rfl
  · exact opensNone_onMark hw
  · rfl

theorem next_opener : next o n b.opener (.text (.propertyValue f g v) .none)
    = ([.entered b.label n, .character b.label b.opener n],
      .ok (.literal f g v b { offset := n, opener := b.opener, forwarded := 1 } 0)) := by
  have hmark : b.opener ∈ (Owner.propertyValue f g v).marks := by
    cases b <;> exact List.mem_of_elem_eq_true rfl
  rw [next, onText_of_mark hmark]
  simp only [onMark, Bracket.ofOpener?_eq_some_iff.mpr rfl]

/-- Only in a value a literal begins, with its opener. -/
theorem text_of_opensBracket (h : (p.next o n ch).1.any Event.opensBracket = true) :
    ∃ (f g v : Opening) (b : Bracket), p = .text (.propertyValue f g v) .none ∧ ch = b.opener := by
  have hfalse : ∀ {es : List Event}, es.any Event.opensBracket = false →
      es.any Event.opensBracket = true → False := fun hno hyes => by
    rw [hno] at hyes
    cases hyes
  have htext : ∀ {w : Owner} {x : Event}, w.label ≠ .propertyValue → x.opensBracket = false →
      (after [x] (onText o n ch w)).1.any Event.opensBracket = true → False := fun hw hx =>
    hfalse (opensNone_after hx (opensNone_onText (.inl hw)))
  cases p with
  | start =>
    exfalso
    simp only [next] at h
    repeat' split at h
    · cases h
    · cases h
    · cases h
    · cases h
    · cases h
    · exact htext (by simp [Owner.label]) rfl h
  | text w s =>
    cases s with
    | none =>
      by_cases hw : w.label ≠ .propertyValue ∨ Bracket.ofOpener? ch = none
      · exact absurd h (by rw [next, opensNone_onText hw]; simp)
      rw [not_or, not_not] at hw
      obtain ⟨b, hb⟩ := Option.ne_none_iff_exists'.mp hw.2
      cases w with
      | propertyValue f g v => exact ⟨f, g, v, b, rfl, Bracket.ofOpener?_eq_some_iff.mp hb⟩
      | _ => cases hw.1
    | escape e => cases h
    | quotes x =>
      simp only [next, onQuoted] at h
      repeat' split at h
      all_goals cases h
    | quotesEscape x e => cases h
  | literal f g v b k depth =>
    simp only [next, onLiteral] at h
    repeat' split at h
    all_goals cases h
  | operation f =>
    simp only [next, onOperation, endOperation] at h
    repeat' split at h
    all_goals cases h
  | list f =>
    exfalso
    simp only [next] at h
    repeat' split at h
    · cases h
    · cases h
    · exact htext (by simp [Owner.label]) rfl h
  | requestEnd f =>
    simp only [next] at h
    repeat' split at h
    all_goals cases h
  | redirect f =>
    simp only [next, onTarget] at h
    repeat' split at h
    all_goals cases h
  | target f g =>
    simp only [next, onTarget] at h
    repeat' split at h
    all_goals cases h

/-- A literal in a value is read to the closer that matches its opener, or to the end. -/
theorem read_literal_cases (o : Options) (n : Nat) (cs : List Char) :
    (∃ body rest, cs = body ++ b.closer :: rest ∧ b.Encloses (b.literal body)
      ∧ read o n (b.opener :: cs) (.text (.propertyValue f g v) .none)
        = delay (b.events n body) (read o (n + Text.byteSize (b.literal body)) rest
          (.text (.propertyValue f g v) .none)))
    ∨ b.Ahead (b.opener :: cs) ∧ ∃ k depth, k.offset = n ∧ k.opener = b.opener
      ∧ read o n (b.opener :: cs) (.text (.propertyValue f g v) .none)
        = delay (.entered b.label n :: passes b.label n (b.opener :: cs))
          ((literal f g v b k depth).finish o (n + Text.byteSize (b.opener :: cs))) := by
  let k : Opening := { offset := n, opener := b.opener, forwarded := 1 }
  rcases literal_cases (f := f) (g := g) (v := v) (b := b) o (n + b.opener.utf8Size) cs k 0 with
    ⟨body, rest, rfl, hlevel, hwithin, hfeed⟩ | ⟨hwithin, k', depth, hoffset, hopener, hfeed⟩
  · refine .inl ⟨body, rest, rfl, ⟨?_, ?_⟩, ?_⟩
    · obtain ⟨hopener, hcloser⟩ := b.count_opener_cons (body ++ [b.closer])
      rw [Bracket.literal, List.cons_append, hopener, hcloser, List.count_append,
        List.count_append, List.count_cons_self]
      have hne := List.count_cons_of_ne (l := []) b.opener_ne_closer.symm
      rw [hne, hlevel]
      rfl
    · rw [Bracket.literal, List.dropLast_concat]
      exact hwithin.ahead
    · have hread := read_append hfeed rest
      rw [List.append_assoc, List.singleton_append] at hread
      rw [read_cons next_opener, hread, delay, delay, delay, ← List.append_assoc]
      simp only [Bracket.events, Bracket.literal, passes, List.cons_append, Text.byteSize_cons,
        List.append_assoc, List.nil_append, Nat.add_assoc]
  · refine .inr ⟨hwithin.ahead, k', depth, hoffset, hopener, ?_⟩
    rw [read_cons next_opener, read, hfeed, delay_delay, Text.byteSize_cons, Nat.add_assoc]
    rfl

end Place

/-- Characters that are all to be kept stay together. -/
theorem Text.infix_trimLoose {isBlank : Char → Bool} {text : List Char} (htext : text ≠ [])
    (left right : List (Char × Bool)) :
    text <:+: trimLoose isBlank (left ++ text.map (fun ch => (ch, true)) ++ right) := by
  obtain ⟨first, rest, rfl⟩ := List.exists_cons_of_ne_nil htext
  have hleft : (left ++ (first :: rest).map (fun ch => (ch, true)) ++ right).dropWhile
      (isLoose isBlank)
        = left.dropWhile (isLoose isBlank) ++ (first :: rest).map (fun ch => (ch, true))
          ++ right := by
    rw [List.append_assoc, List.map_cons, List.cons_append, dropWhile_isLoose_append rfl,
      ← List.cons_append, ← List.append_assoc]
  obtain ⟨init, last, hlast⟩ : ∃ init last, first :: rest = init ++ [last] :=
    ⟨_, _, (List.dropLast_append_getLast (by simp)).symm⟩
  have hright : (left.dropWhile (isLoose isBlank) ++ (init ++ [last]).map (fun ch => (ch, true))
      ++ right).rdropWhile (isLoose isBlank)
        = left.dropWhile (isLoose isBlank) ++ (init ++ [last]).map (fun ch => (ch, true))
          ++ right.rdropWhile (isLoose isBlank) := by
    simp only [List.map_append, List.map_singleton, List.append_assoc, List.singleton_append]
    rw [← List.append_assoc, rdropWhile_isLoose_append rfl, List.append_assoc]
  rw [trimLoose, hleft, hlast, hright, List.map_append, List.map_append, List.map_map]
  have hid : (Prod.fst ∘ fun ch : Char => (ch, true)) = id := rfl
  rw [hid, List.map_id]
  exact ⟨_, _, rfl⟩

/-- The value behind the separator at `sep` contains the text. -/
def Request.Contains (text : List Char) (sep : Nat) (r : Request) : Prop :=
  ∃ ps p value, r.properties = some ps ∧ p ∈ ps ∧ p.valueSeparator = some sep
    ∧ p.value = some value ∧ text <:+: value.toList

/-- The draft is of a property whose value, behind the separator at `sep`, contains the text as it
is to be kept. -/
def Draft.Contains (text : List Char) (sep : Nat) (d : Draft) : Prop :=
  ∃ name left right,
    d = .property name (some (sep, left ++ text.map (fun ch => (ch, true)) ++ right))

section Containing

variable {o : Options} {text : List Char} {sep n : Nat} {r : Request} {d : Draft} {x : Progress}
  {e : Event} {s : List Label × Label} {st : List Label}

theorem Request.Contains.into (h : r.Contains text sep) (d : Draft) :
    (d.into o r).Contains text sep := by
  obtain ⟨ps, p, value, hps, hp, hsep, hvalue, htext⟩ := h
  have hmore : ∃ qs, (d.into o r).properties = some (ps ++ qs) := by
    cases d with
    | operation name => exact ⟨[], by rw [(Draft.into_operation o r name).1, hps, List.append_nil]⟩
    | property name value => exact ⟨_, by rw [Draft.into, hps]; rfl⟩
    | _ => exact ⟨[], by rw [List.append_nil]; exact hps⟩
  obtain ⟨qs, hqs⟩ := hmore
  exact ⟨ps ++ qs, p, value, hqs, List.mem_append_left qs hp, hsep, hvalue, htext⟩

theorem Draft.Contains.into (h : d.Contains text sep) (htext : text ≠ [])
    (hr : r.properties ≠ none) : (d.into o r).Contains text sep := by
  obtain ⟨name, left, right, rfl⟩ := h
  obtain ⟨ps, hps⟩ := Option.ne_none_iff_exists'.mp hr
  let value := Draft.text o (left ++ text.map (fun ch => (ch, true)) ++ right)
  let p : Property := { name := Draft.text o name, value := some value, valueSeparator := some sep }
  refine ⟨ps ++ [p], p, value, ?_, by simp, rfl, rfl, ?_⟩
  · simp [Draft.into, hps, p, value]
  · simp only [value, Draft.text, String.toList_ofList]
    exact Text.infix_trimLoose htext left right

namespace Progress

/-- The text is in a property that is done, or in the one that is being read. -/
def Carries (text : List Char) (sep : Nat) (x : Progress) : Prop :=
  x.done.Contains text sep ∨ x.draft.Contains text sep ∧ x.done.properties ≠ none

/-- What is done stays, unless another list begins. -/
theorem contains_take (h : x.done.Contains text sep) (he : e.entersList = false) :
    (x.take o e).done.Contains text sep := by
  cases e with
  | entered l n => cases l <;> first | exact h | cases he
  | character l ch n =>
    simp only [take, give]
    split
    · exact h
    split
    · exact h
    · exact h
  | leaving l n c =>
    simp only [take, leave]
    split
    · exact h.into x.draft
    · exact h

theorem Carries.take (h : x.Carries text sep) (htext : text ≠ []) (he : e.entersList = false)
    (hdrafts : e.drafts? (st, x.draft.label) = some s) : (x.take o e).Carries text sep := by
  rcases h with h | ⟨hdraft, hdone⟩
  · exact .inl (contains_take h he)
  obtain ⟨done, d⟩ := x
  obtain ⟨name, left, right, rfl⟩ := hdraft
  cases e with
  | entered l n =>
    cases l <;> first | exact .inr ⟨⟨name, left, right, rfl⟩, hdone⟩ | cases hdrafts
  | character l ch n =>
    by_cases hl : l = .initial ∨ l = .outputRedirect
    · rcases hl with rfl | rfl
      · cases hdrafts
      · simp [Event.drafts?, Draft.label] at hdrafts
    · rw [not_or] at hl
      refine .inr ⟨⟨name, left, right ++ [(ch, l.isLiteral)], ?_⟩, ?_⟩
      · simp only [Progress.take, give, if_neg hl.1, if_neg hl.2, Draft.add, List.append_assoc]
      · simpa only [Progress.take, give, if_neg hl.1, if_neg hl.2] using hdone
  | leaving l n c =>
    simp only [Progress.take, leave]
    split
    · exact .inl (Draft.Contains.into ⟨name, left, right, rfl⟩ htext hdone)
    · exact .inr ⟨⟨name, left, right, rfl⟩, hdone⟩

theorem Carries.foldl_take {es : List Event} (h : x.Carries text sep) (htext : text ≠ [])
    (hes : ∀ e ∈ es, e.entersList = false)
    (hdrafts : es.foldlM Event.drafts? (st, x.draft.label) = some s) :
    (es.foldl (Progress.take o) x).Carries text sep := by
  induction es generalizing st x with
  | nil => exact h
  | cons e es ih =>
    rw [List.foldlM_cons] at hdrafts
    obtain ⟨s', hs', hdrafts⟩ := Option.bind_eq_some_iff.mp hdrafts
    have hlabel := (follows (o := o) hs').label
    rw [List.forall_mem_cons] at hes
    exact ih (h.take htext hes.1 hs') hes.2 (by rw [hlabel]; exact hdrafts)

theorem contains_foldl_take {es : List Event} (h : x.done.Contains text sep)
    (hes : ∀ e ∈ es, e.entersList = false) : (es.foldl (take o) x).done.Contains text sep := by
  induction es generalizing x with
  | nil => exact h
  | cons e es ih =>
    rw [List.forall_mem_cons] at hes
    exact ih (contains_take h hes.1) hes.2

/-- The value of the property that is being read is the one that was entered last, and the property
was not left: all other events go on with the value. -/
theorem exists_entered_value {es : List Event} {name value : List (Char × Bool)}
    (h : (es.foldl (take o) {}).draft = .property name (some (sep, value))) :
    ∃ es₁ es₂, es = es₁ ++ Event.entered .propertyValue sep :: es₂
      ∧ (∀ k, Event.entered .propertyValue k ∉ es₂) ∧ ∀ k c, Event.leaving .property k c ∉ es₂ := by
  induction es using List.reverseRecOn generalizing name value with
  | nil => cases h
  | append_singleton es e ih =>
    rw [List.foldl_append, List.foldl_cons, List.foldl_nil] at h
    generalize es.foldl (take o) {} = x at h ih
    obtain ⟨done, d⟩ := x
    have hkeep : (∃ name value, d = .property name (some (sep, value))) →
        (∀ k, e ≠ .entered .propertyValue k) → (∀ k c, e ≠ .leaving .property k c) →
        ∃ es₁ es₂, es ++ [e] = es₁ ++ Event.entered .propertyValue sep :: es₂
          ∧ (∀ k, Event.entered .propertyValue k ∉ es₂)
          ∧ ∀ k c, Event.leaving .property k c ∉ es₂ := by
      rintro ⟨name, value, hd⟩ hentered hleaving
      obtain ⟨es₁, es₂, rfl, hlast, hopen⟩ := ih hd
      exact ⟨es₁, es₂ ++ [e], by simp,
        fun k => by simp [hlast k, Ne.symm (hentered k)],
        fun k c => by simp [hopen k c, Ne.symm (hleaving k c)]⟩
    cases e with
    | entered l n =>
      by_cases hl : l = .propertyValue
      · subst hl
        rcases d with _ | ⟨type, _ | name⟩ | name | ⟨name, _ | ⟨m, value⟩⟩ | ⟨mode, target⟩ <;>
          cases h <;> exact ⟨es, [], rfl, by simp⟩
      · refine hkeep ?_ (by simpa using hl) (by simp)
        cases l <;> first | exact ⟨_, _, h⟩ | exact absurd rfl hl | cases h | skip
        rcases d with _ | ⟨type, _ | name⟩ | name | ⟨name, _ | ⟨m, value⟩⟩ | ⟨mode, target⟩ <;>
          cases h
        exact ⟨_, _, rfl⟩
    | character l ch n =>
      refine hkeep ?_ (by simp) (by simp)
      simp only [take, give] at h
      split at h
      · exact ⟨_, _, h⟩
      split at h
      all_goals
        rcases d with _ | ⟨type, _ | name⟩ | name | ⟨name, _ | ⟨m, value⟩⟩ | ⟨mode, target⟩ <;>
          cases h
        exact ⟨_, _, rfl⟩
    | leaving l n c =>
      simp only [take, leave] at h
      split at h
      · cases h
      · rename_i hpart
        have hdraft : d = .property name (some (sep, value)) := h
        refine hkeep ⟨_, _, hdraft⟩ (by simp) fun k c' hl => hpart ?_
        cases hl
        rw [hdraft]
        rfl

end Progress

end Containing

namespace Place

variable {o : Options} {n m : Nat} {cs : List Char} {b : Bracket} {p : Place}

/-- A literal begins in a value, and what comes before it is read to there. -/
theorem exists_of_entered_bracket (h : .entered b.label m ∈ (start.read o 0 cs).1) :
    ∃ before rest es f g v, cs = before ++ b.opener :: rest ∧ m = Text.byteSize before
      ∧ feed o 0 before .start = (es, .ok (.text (.propertyValue f g v) .none)) := by
  rcases exists_of_mem_read h with ⟨before, ch, rest, es, q, rfl, hfeed, he⟩ | ⟨es, q, -, he⟩
  · rw [Nat.zero_add] at he
    obtain ⟨f, g, v, b', rfl, rfl⟩ :=
      text_of_opensBracket (List.any_eq_true.mpr ⟨_, he, b.opensBracket m⟩)
    rw [next_opener] at he
    simp only [List.mem_cons, Event.entered.injEq, reduceCtorEq, List.not_mem_nil, or_false] at he
    obtain ⟨hlabel, rfl⟩ := he
    obtain rfl : b = b' := by cases b <;> cases b' <;> first | rfl | cases hlabel
    exact ⟨before, rest, es, f, g, v, rfl, rfl, hfeed⟩
  · obtain ⟨ls, hls⟩ := finish_leavings (o := o) (n := 0 + Text.byteSize cs) q
    rw [hls] at he
    obtain ⟨l, -, hl⟩ := List.mem_map.mp he
    cases hl

end Place

/-- What is read in a value up to an accepted line's end keeps the text that the value contains. -/
theorem Place.contains_read {o : Options} {n sep : Nat} {cs text : List Char} {f g v : Opening}
    {x : Progress} (hlabel : x.draft.label = .propertyValue) (hdraft : x.draft.Contains text sep)
    (hdone : x.done.properties ≠ none) (htext : text ≠ [])
    (hok : ((Place.text (.propertyValue f g v) .none).read o n cs).2 = none) :
    Request.Contains text sep
      (((Place.text (.propertyValue f g v) .none).read o n cs).1.foldl
        (Progress.take o) x).done := by
  have hlist : ∀ e ∈ ((Place.text (.propertyValue f g v) .none).read o n cs).1,
      e.entersList = false := by
    intro e he
    rw [← Bool.not_eq_true]
    intro henters
    obtain ⟨k, rfl⟩ : ∃ k, e = .entered .propertyList k := by
      rcases e with ⟨l, k⟩ | _ | _
      · cases l <;> first | exact ⟨k, rfl⟩ | cases henters
      · cases henters
      · cases henters
    have houter := (exists_list_of_entered he).1
    simp [beforeList, outer, labels, Place.stack, Owner.stack, Shelter.stack, Opening.frame]
      at houter
  obtain ⟨es, q, hfeed, hread⟩ := exists_feed_of_read hok
  rw [hread] at hok hlist ⊢
  have hdrafts := drafts_feed hfeed
  rw [status, owning, Owner.label, ← hlabel] at hdrafts
  rw [delay, List.foldl_append]
  have hcarries : (es.foldl (Progress.take o) x).Carries text sep :=
    Progress.Carries.foldl_take (.inr ⟨hdraft, hdone⟩) htext
      (fun e he => hlist e (List.mem_append_left _ he)) hdrafts
  have hq := (Progress.foldl_follow (o := o) hdrafts).2
  rcases hcarries with hcontains | ⟨⟨name, left, right, hd⟩, -⟩
  · exact Progress.contains_foldl_take hcontains fun e he => hlist e (List.mem_append_right _ he)
  · rw [hd] at hq
    exfalso
    cases q with
    | text w s =>
      cases w with
      | propertyValue f g v => cases s <;> cases hok
      | _ => cases hq
    | literal f g v b k depth =>
      simp only [finish] at hok
      split at hok <;> cases hok
    | _ => cases hq

/-- Where a value is being read, the draft is of its property. -/
theorem Place.exists_draft_of_value {o : Options} {cs : List Char} {es : List Event}
    {f g v : Opening} (h : feed o 0 cs .start = (es, .ok (.text (.propertyValue f g v) .none))) :
    ∃ name sep value, (es.foldl (Progress.take o) {}).draft = .property name (some (sep, value))
      ∧ (es.foldl (Progress.take o) {}).done.properties ≠ none := by
  obtain ⟨hfold, hlabel⟩ := Progress.foldl_follow (o := o) (x := {}) (drafts_feed h)
  obtain ⟨name, ⟨sep, value⟩, hdraft⟩ := Draft.isOf_of_label hlabel
  obtain ⟨r, d, hkept, hd, hfits⟩ : (Place.text (.propertyValue f g v) .none).Keeps o ([] ++ es) :=
    keeps_feed (keeps_start o) h
  obtain ⟨name', value', rfl⟩ := Draft.isOf_of_label hd
  have hdone : (es.foldl (Progress.take o) {}).done = r := by
    have hsame := congrArg Collector.request (hfold.symm.trans hkept.fold)
    rwa [Progress.request_onto] at hsame
  exact ⟨name, sep, value, hdraft, by rw [hdone]; exact hfits.1⟩

/-- A literal goes into the text that is being read, as it is. -/
theorem Progress.foldl_take_literal {o : Options} (b : Bracket) (n : Nat) (body : List Char)
    (x : Progress) :
    (b.events n body).foldl (take o) x
      = { x with draft := x.draft.addAll ((b.literal body).map fun ch => (ch, true)) } := by
  have hentered : x.take o (.entered b.label n) = x := by cases b <;> rfl
  have hleaving : ∀ (k : Nat) (y : Progress), y.take o (.leaving b.label k b.closer) = y := by
    rintro k ⟨done, d⟩
    cases b <;> cases d <;> rfl
  have hinitial : b.label ≠ .initial := by cases b <;> simp [Bracket.label]
  have hredirect : b.label ≠ .outputRedirect := by cases b <;> simp [Bracket.label]
  rw [Bracket.events, List.foldl_append, List.foldl_cons, List.foldl_cons, List.foldl_nil, hentered,
    foldl_take_passes hinitial hredirect, hleaving, b.isLiteral_label]

/-- The request of an accepted line has a literal in the value that was entered last before it. -/
theorem Request.contains_literal {o : Options} {line : String} {r : Request} {n m : Nat}
    {before body rest : List Char} {b : Bracket} {es : List Event} {f g v : Opening}
    (h : Request.parse o line = .ok r)
    (hfeed : Place.feed o 0 before .start = (es, .ok (.text (.propertyValue f g v) .none)))
    (hread : Place.start.read o 0 line.toList = Place.delay (es ++ b.events m body)
      ((Place.text (.propertyValue f g v) .none).read o n rest)) :
    ∃ sep es₁ es₂, es = es₁ ++ Event.entered .propertyValue sep :: es₂
      ∧ (∀ k, Event.entered .propertyValue k ∉ es₂) ∧ (∀ k c, Event.leaving .property k c ∉ es₂)
      ∧ r.Contains (b.literal body) sep := by
  obtain ⟨name, sep, value, hdraft, hdone⟩ := Place.exists_draft_of_value hfeed
  obtain ⟨es₁, es₂, hes, hentered, hleaving⟩ := Progress.exists_entered_value hdraft
  obtain ⟨hok, hr⟩ := Request.parse_eq_ok_iff_progress.mp h
  refine ⟨sep, es₁, es₂, hes, hentered, hleaving, ?_⟩
  rw [hread, Place.delay] at hr hok
  rw [List.foldl_append, List.foldl_append, Progress.foldl_take_literal, hdraft,
    Draft.addAll_value] at hr
  rw [← hr]
  exact Place.contains_read rfl ⟨name, value, [], by rw [List.append_nil]⟩ hdone
    (List.cons_ne_nil _ _) hok

/-- A bracket literal ends at the first closer with which openers and closers are equally many. All
of it is passed on by its state, and nothing else happens in between; if the line is accepted, it is
in the value of the property around it. If there is no such closer the line ends in the literal, and
that is an error at the opener unless brackets are read leniently. -/
theorem literal_ends_at_matching_closer {o : Options} {line : String} {b : Bracket} {m : Nat}
    (h : .entered b.label m ∈ (Request.run o Sink.record line #[]).consumer) :
    ∃ before rest es, line.toList = before ++ b.opener :: rest ∧ m = Text.byteSize before
      ∧ (∀ e ∈ es, e.offset < m)
      ∧ ((∃ body after es', rest = body ++ b.closer :: after ∧ b.Encloses (b.literal body)
          ∧ (Request.run o Sink.record line #[]).consumer.toList = es ++ b.events m body ++ es'
          ∧ (∀ e ∈ es', m + Text.byteSize (b.opener :: body) < e.offset)
          ∧ ∀ r, Request.parse o line = .ok r →
            ∃ sep es₁ es₂, es = es₁ ++ .entered .propertyValue sep :: es₂
              ∧ (∀ k, .entered .propertyValue k ∉ es₂) ∧ (∀ k c, .leaving .property k c ∉ es₂)
              ∧ r.Contains (b.literal body) sep)
        ∨ b.Ahead (b.opener :: rest)
          ∧ (∃ ls : List Label, (Request.run o Sink.record line #[]).consumer.toList
            = es ++ .entered b.label m :: passes b.label m (b.opener :: rest)
              ++ ls.map fun l => .leaving l line.utf8ByteSize none)
          ∧ (o.lenientBrackets = false →
            ∃ stop, Request.parse o line = .error stop ∧ stop.error? = some
              { cause := .unmatchedBracket b.opener, offset := m, state := b.label
                found := none })) := by
  have hevents := (Request.run_record o line).1
  rw [← Array.mem_toList_iff, hevents] at h
  obtain ⟨before, rest, es, f, g, v, hline, rfl, hfeed⟩ :=
    Place.exists_of_entered_bracket h
  rw [hevents]
  refine ⟨before, rest, es, hline, rfl, fun e he => ?_, ?_⟩
  · have hlt := (Place.offset_feed hfeed e he).2
    rwa [Nat.zero_add] at hlt
  have hread := Place.read_append hfeed (b.opener :: rest)
  rw [Nat.zero_add, ← hline] at hread
  rcases Place.read_literal_cases (f := f) (g := g) (v := v) (b := b) o (Text.byteSize before)
      rest with
    ⟨body, after, rfl, hencloses, hclose⟩ | ⟨hahead, k, depth, hoffset, hopener, hopen⟩
  · rw [hclose, Place.delay_delay] at hread
    refine .inl ⟨body, after, _, rfl, hencloses, congrArg Prod.fst hread, fun e he => ?_,
      fun r hr => Request.contains_literal hr hfeed hread⟩
    have hle := Place.le_offset_read he
    have hpos := b.closer.utf8Size_pos
    rw [Bracket.literal, Text.byteSize_append] at hle
    simp only [Text.byteSize_cons, Text.byteSize_nil] at hle ⊢
    omega
  · have hsize : Text.byteSize before + Text.byteSize (b.opener :: rest) = line.utf8ByteSize := by
      rw [← Text.byteSize_append, ← hline, Text.byteSize_toList]
    rw [hopen, hsize, Place.delay_delay] at hread
    refine .inr ⟨hahead, ?_, fun hstrict => ?_⟩
    · obtain ⟨ls, hls⟩ := Place.finish_leavings (o := o) (n := line.utf8ByteSize)
        (.literal f g v b k depth)
      exact ⟨ls, by rw [hread, Place.delay, hls]⟩
    · refine Request.parse_error_of_read ?_
      rw [hread, ← hoffset, ← hopener]
      simp only [Place.delay, Place.finish, hstrict]
      rfl

/-- Parentheses, an open quote and a backslash stay in a literal between parentheses, and the list
goes on behind it. -/
theorem literal_of_parens_in_list :
    let b := Bracket.parens
    let line := "a(b=(c()\"\\)d,e)"
    let run := Request.run {} Sink.record line #[]
    .entered b.label 4 ∈ run.consumer
      ∧ Request.parse {} line = .ok
        { address := [.node ⟨"a", none⟩]
          properties := some [⟨"b", some "(c()\"\\)d", some 3⟩, ⟨"e", none, none⟩] }
      ∧ ∃ es body es', run.consumer.toList = es ++ b.events 4 body ++ es'
        ∧ b.Encloses (b.literal body) := by
  intro b line run
  have hentered : .entered b.label 4 ∈ run.consumer := by decide +kernel
  have hparse : Request.parse {} line = .ok
      { address := [.node ⟨"a", none⟩]
        properties := some [⟨"b", some "(c()\"\\)d", some 3⟩, ⟨"e", none, none⟩] } := by
    decide +kernel
  refine ⟨hentered, hparse, ?_⟩
  obtain ⟨before, rest, es, -, -, -, hcases⟩ := literal_ends_at_matching_closer hentered
  rcases hcases with ⟨body, after, es', -, hencloses, hevents, -⟩ | ⟨-, -, hfails⟩
  · exact ⟨es, body, es', hevents, hencloses⟩
  · obtain ⟨stop, hstop, -⟩ := hfails rfl
    rw [hparse] at hstop
    cases hstop

end RequestLine
