import RequestLine.Proofs.Drafting
import RequestLine.Proofs.Leniency

/-!
# Redirections

A redirection comes last, and nothing in it is interpreted. Wherever a line may end a `>` may come,
and it closes the states that the end of the line would close (`Place.next_redirect`); from there
on one more `>` is a mark, blanks are passed over and all else is the target
(`Place.read_redirect`). Conversely a line that has come to a redirection is an accepted line up to
its marks (`Place.redirected_feed`).
-/

namespace RequestLine

/-- The number of marks after the first. -/
def RedirectMode.repeated : RedirectMode → Nat
  | overwrite => 0
  | append => 1

def RedirectMode.marks (mode : RedirectMode) : List Char :=
  mode.render.toList

/-- The event, if it closes a state, as it is at the character `ch`. -/
def Event.closedAt (ch : Char) : Event → Event
  | .leaving l n _ => .leaving l n (some ch)
  | e => e

theorem Progress.take_closedAt (o : Options) (x : Progress) (e : Event) (ch : Char) :
    x.take o (e.closedAt ch) = x.take o e := by
  cases e <;> rfl

/-- At which character the states are closed does not matter to the request. -/
theorem Progress.foldl_take_closedAt (o : Options) (es : List Event) (ch : Char) (x : Progress) :
    (es.map (Event.closedAt ch)).foldl (take o) x = es.foldl (take o) x := by
  rw [List.foldl_map]
  simp only [take_closedAt]

namespace Place

variable {o : Options} {n : Nat} {ch : Char} {p q : Place} {es : List Event}

/-- Where the line may end, a `>` ends what the end of the line would end. -/
theorem next_redirect (hp : ∀ f g, p ≠ target f g) (hok : (p.finish o n).2 = none) :
    p.next o n '>' = ((p.finish o n).1.map (Event.closedAt '>')
        ++ [Event.entered .outputRedirect n],
      .ok (.redirect { offset := n, opener := '>' })) := by
  have hblank : o.isBlank '>' = false := o.isBlank_of_isMark rfl
  cases p with
  | start => simp [next, finish, hblank]
  | text w s =>
    cases s with
    | none =>
      cases w with
      | node f => rw [next, onText_of_mark (List.mem_of_elem_eq_true rfl)]; rfl
      | nodeName f g => rw [next, onText_of_mark (List.mem_of_elem_eq_true rfl)]; rfl
      | _ => cases hok
    | _ => cases hok
  | literal f g v b k depth =>
    simp only [finish] at hok
    split at hok <;> cases hok
  | operation f =>
    simp only [finish, ite_eq_right_iff, reduceCtorEq, imp_false] at hok
    simp [next, onOperation, endOperation, finish, Event.closedAt, hblank, hok]
  | list f => cases hok
  | requestEnd f => simp [next, finish, Event.closedAt, hblank]
  | redirect f => cases hok
  | target f g => exact absurd rfl (hp f g)

variable {f : Opening}

theorem redirect_of_endSegment (h : endSegment n ch = (es, .ok (.redirect f))) :
    ch ≠ '/' ∧ ch ≠ ':' ∧ ch ≠ '(' ∧ f.forwarded = 0 := by
  unfold endSegment at h
  dsimp only at h
  split at h
  · cases h
  split at h
  · cases h
  split at h
  · cases h
  · rename_i hslash hcolon hparen
    cases h
    exact ⟨hslash, hcolon, hparen, rfl⟩

theorem endProperty_ne_redirect {g : Opening} : (endProperty n ch g).2 ≠ .ok (.redirect f) := by
  intro h
  unfold endProperty at h
  dsimp only at h
  split at h <;> cases h

/-- Of the texts only those of an address are followed by a redirection. -/
theorem redirect_of_onText {w : Owner} (h : onText o n ch w = (es, .ok (.redirect f))) :
    ch = '>' ∧ f.forwarded = 0 ∧ (finishText n w).2 = none := by
  have hmarks : ch ∈ w.marks ∧ onMark n ch w = (es, .ok (.redirect f)) := by
    unfold onText at h
    split at h
    · cases h
    split at h
    · cases h
    split at h
    · cases h
    split at h
    · rename_i hmark
      exact ⟨hmark, h⟩
    · cases h
  obtain ⟨hmark, h⟩ := hmarks
  have hend : ∀ {es}, ch ∈ ['=', '/', ':', '(', '>', ')'] → ch ≠ '=' → ch ≠ ')' →
      endSegment n ch = (es, .ok (.redirect f)) → ch = '>' ∧ f.forwarded = 0 := by
    intro es hmem heq hparen h
    obtain ⟨hslash, hcolon, hopen, hf⟩ := redirect_of_endSegment h
    simp only [List.mem_cons, List.not_mem_nil, or_false] at hmem
    exact ⟨by tauto, hf⟩
  cases w with
  | node g =>
    simp only [onMark] at h
    split at h
    · cases h
    split at h
    · cases h
    · rename_i heq hparen
      obtain ⟨hch, hf⟩ := hend hmark heq hparen h
      exact ⟨hch, hf, rfl⟩
  | nodeName g x =>
    simp only [onMark] at h
    split at h
    · cases h
    split at h
    · cases h
    · rename_i heq hparen
      obtain ⟨-, h⟩ := Prod.mk.inj h
      obtain ⟨hch, hf⟩ := hend hmark heq hparen (Prod.ext rfl h)
      exact ⟨hch, hf, rfl⟩
  | property g x =>
    simp only [onMark] at h
    split at h
    · cases h
    · exact absurd (congrArg Prod.snd h) endProperty_ne_redirect
  | propertyValue g x v =>
    simp only [onMark] at h
    split at h
    · cases h
    · exact absurd (Prod.mk.inj h).2 endProperty_ne_redirect

/-- A redirection begins with a `>` where the line may end, or goes on with a second one. -/
theorem redirect_of_next (h : p.next o n ch = (es, .ok (.redirect f))) :
    ch = '>' ∧ (f.forwarded = 0 ∧ (p.finish o n).2 = none ∧ (∀ f g, p ≠ target f g)
      ∨ ∃ f', p = redirect f' ∧ f'.forwarded = 0 ∧ f.forwarded = 1) := by
  cases p with
  | start =>
    simp only [next] at h
    repeat' split at h
    · cases h
    · cases h
    · cases h
    · cases h
    · rename_i hch
      cases h
      exact ⟨hch, .inl ⟨rfl, rfl, by simp⟩⟩
    · obtain ⟨-, h⟩ := Prod.mk.inj h
      exact absurd (redirect_of_onText (Prod.ext rfl h)).1 ‹_›
  | text w s =>
    cases s with
    | none =>
      obtain ⟨hch, hf, hok⟩ := redirect_of_onText h
      exact ⟨hch, .inl ⟨hf, hok, by simp⟩⟩
    | escape e => cases h
    | quotes x =>
      simp only [next, onQuoted] at h
      repeat' split at h
      all_goals cases h
    | quotesEscape x e => cases h
  | literal g x v b k depth =>
    simp only [next, onLiteral] at h
    repeat' split at h
    all_goals cases h
  | operation g =>
    simp only [next, onOperation, endOperation] at h
    repeat' split at h
    all_goals cases h
    rename_i hch hsome
    exact ⟨hch, .inl ⟨rfl, by simp [finish, hsome], by simp⟩⟩
  | list g =>
    simp only [next] at h
    repeat' split at h
    · cases h
    · cases h
    · obtain ⟨-, h⟩ := Prod.mk.inj h
      have hno := (redirect_of_onText (Prod.ext rfl h)).2.2
      cases hno
  | requestEnd g =>
    simp only [next] at h
    repeat' split at h
    all_goals cases h
    rename_i hch
    exact ⟨hch, .inl ⟨rfl, rfl, by simp⟩⟩
  | redirect g =>
    simp only [next, onTarget, after] at h
    repeat' split at h
    all_goals cases h
    rename_i hch hzero
    exact ⟨hch, .inr ⟨g, rfl, hzero, by simp [Opening.counted, hzero]⟩⟩
  | target g x =>
    simp only [next, onTarget] at h
    repeat' split at h
    all_goals cases h

theorem onMark_ne_target {w : Owner} {f g : Opening} : (onMark n ch w).2 ≠ .ok (.target f g) := by
  intro h
  cases w <;> simp only [onMark, endSegment, endProperty, endList, after, unexpected] at h <;>
    repeat' split at h
  all_goals cases h

theorem onText_ne_target {w : Owner} {f g : Opening} :
    (onText o n ch w).2 ≠ .ok (.target f g) := by
  intro h
  unfold onText at h
  split at h
  · cases h
  split at h
  · cases h
  split at h
  · cases h
  split at h
  · exact onMark_ne_target h
  · cases h

/-- A target begins behind the marks, at a character that is none. -/
theorem target_of_next {f g : Opening} (h : p.next o n ch = (es, .ok (.target f g))) :
    (∃ g', p = target f g') ∨ p = redirect f ∧ ch ≠ '>' := by
  have h₂ : (p.next o n ch).2 = .ok (.target f g) := congrArg Prod.snd h
  clear h
  cases p with
  | start =>
    simp only [next, after] at h₂
    repeat' split at h₂
    all_goals first | exact absurd h₂ onText_ne_target | cases h₂
  | text w s =>
    cases s with
    | none => exact absurd h₂ onText_ne_target
    | escape e => cases h₂
    | quotes x =>
      simp only [next, onQuoted] at h₂
      repeat' split at h₂
      all_goals cases h₂
    | quotesEscape x e => cases h₂
  | literal f x v b k depth =>
    simp only [next, onLiteral] at h₂
    repeat' split at h₂
    all_goals cases h₂
  | operation f =>
    simp only [next, onOperation, endOperation, unexpected] at h₂
    repeat' split at h₂
    all_goals cases h₂
  | list f =>
    simp only [next, after, endList] at h₂
    repeat' split at h₂
    all_goals first | exact absurd h₂ onText_ne_target | cases h₂
  | requestEnd f =>
    simp only [next, unexpected] at h₂
    repeat' split at h₂
    all_goals cases h₂
  | redirect f' =>
    simp only [next, onTarget, after, unexpected] at h₂
    repeat' split at h₂
    all_goals first | exact .inr ⟨by cases h₂; rfl, ‹_›⟩ | cases h₂
  | target f' x =>
    simp only [next, onTarget] at h₂
    split at h₂ <;> cases h₂ <;> exact .inl ⟨_, rfl⟩

/-- The line `cs` leads to a place where it may end, and not in a redirection. -/
def EndsBefore (o : Options) (cs : List Char) : Prop :=
  ∃ es q, feed o 0 cs .start = (es, .ok q) ∧ (∀ f g, q ≠ target f g)
    ∧ (q.finish o (Text.byteSize cs)).2 = none

/-- What was read up to a redirection may end before the marks. -/
def Redirected (o : Options) (cs : List Char) : Place → Prop
  | redirect f => ∃ (front : List Char) (mode : RedirectMode), EndsBefore o front
    ∧ f.forwarded = mode.repeated ∧ cs = front ++ mode.marks
  | target _ _ => ∃ (front : List Char) (mode : RedirectMode) (first : Char) (rest : List Char),
    EndsBefore o front ∧ first ≠ '>' ∧ cs = front ++ mode.marks ++ first :: rest
  | _ => True

theorem redirected_next {cs : List Char} {es' : List Event}
    (hfeed : feed o 0 cs .start = (es, .ok p)) (h : p.Redirected o cs)
    (hnext : p.next o (Text.byteSize cs) ch = (es', .ok q)) : q.Redirected o (cs ++ [ch]) := by
  cases q with
  | redirect f =>
    obtain ⟨rfl, ⟨hf, hok, hp⟩ | ⟨f', rfl, hf', hf⟩⟩ := redirect_of_next hnext
    · exact ⟨cs, .overwrite, ⟨es, p, hfeed, hp, hok⟩, hf, rfl⟩
    · obtain ⟨front, mode, hfront, hmode, rfl⟩ := h
      cases mode with
      | overwrite => exact ⟨front, .append, hfront, hf, by rw [List.append_assoc]; rfl⟩
      | append =>
        rw [hf'] at hmode
        cases hmode
  | target f g =>
    rcases target_of_next hnext with ⟨g', rfl⟩ | ⟨rfl, hch⟩
    · obtain ⟨front, mode, first, rest, hfront, hfirst, rfl⟩ := h
      exact ⟨front, mode, first, rest ++ [ch], hfront, hfirst, by simp⟩
    · obtain ⟨front, mode, hfront, -, rfl⟩ := h
      exact ⟨front, mode, ch, [], hfront, hch, rfl⟩
  | _ => trivial

theorem redirected_feed {cs : List Char} (h : feed o 0 cs .start = (es, .ok p)) :
    p.Redirected o cs := by
  refine (feed_invariant (fun cs es p => feed o 0 cs .start = (es, .ok p) ∧ p.Redirected o cs) 0
    (fun {cs es p ch es' q} hp hnext => ?_) [] [] ⟨rfl, trivial⟩ h).2
  have hfeed : feed o 0 (cs ++ [ch]) .start = (es ++ es', .ok q) := by
    rw [feed_append hp.1]
    simp only [feed, hnext, after, List.append_nil]
  rw [Nat.zero_add] at hnext
  exact ⟨hfeed, redirected_next hp.1 hp.2 hnext⟩

section Marks

variable {f g : Opening} {cs front : List Char}

/-- After the marks of a redirection the request is that of the line before them. -/
theorem feed_marks (hfront : EndsBefore o front) (mode : RedirectMode) :
    ∃ es f, feed o 0 (front ++ mode.marks) .start = (es, .ok (.redirect f))
      ∧ f.forwarded = mode.repeated
      ∧ es.foldl (Progress.take o) {}
        = { done := ((read o 0 front .start).1.foldl (Progress.take o) {}).done
            draft := .redirect mode [] } := by
  obtain ⟨es, q, hfeed, hq, hok⟩ := hfront
  let f : Opening := { offset := Text.byteSize front, opener := '>' }
  let closing := (q.finish o (Text.byteSize front)).1.map (Event.closedAt '>')
    ++ [Event.entered .outputRedirect (Text.byteSize front)]
  have hfirst : feed o 0 (front ++ ['>']) .start = (es ++ closing, .ok (.redirect f)) := by
    rw [feed_append hfeed]
    simp only [feed, Nat.zero_add, next_redirect hq hok, after, List.append_nil, closing, f]
  have htaken : (es ++ closing).foldl (Progress.take o) {}
      = { done := ((read o 0 front .start).1.foldl (Progress.take o) {}).done
          draft := .redirect .overwrite [] } := by
    have hread : (read o 0 front .start).1 = es ++ (q.finish o (Text.byteSize front)).1 := by
      rw [read, hfeed, Nat.zero_add]
      rfl
    rw [hread, List.foldl_append, List.foldl_append, List.foldl_append,
      Progress.foldl_take_closedAt]
    rfl
  cases mode with
  | overwrite => exact ⟨_, f, hfirst, rfl, htaken⟩
  | append =>
    refine ⟨es ++ closing ++ [Event.character .outputRedirect '>' (Text.byteSize front + 1)],
      f.counted, ?_, rfl, ?_⟩
    · have hmarks : RedirectMode.append.marks = ['>'] ++ ['>'] := rfl
      have hsize : '>'.utf8Size = 1 := rfl
      rw [hmarks, ← List.append_assoc, feed_append hfirst]
      simp [feed, next, after, f, hsize]
    · rw [List.foldl_append, htaken]
      rfl

/-- Blanks are no target. -/
theorem read_target_of_blanks (hg : g.forwarded = 0) (h : ∀ ch ∈ cs, o.isBlank ch = true) :
    read o n cs (target f g)
      = cutOff .emptyRedirectTarget (n + Text.byteSize cs) .outputTarget := by
  induction cs generalizing n with
  | nil => simp [read, feed, delay, finish, hg, cutOff]
  | cons ch cs ih =>
    rw [List.forall_mem_cons] at h
    have hnext : next o n ch (target f g) = ([], .ok (target f g)) := by
      simp [next, onTarget, h.1, hg]
    rw [read_cons hnext, ih h.2, Text.byteSize_cons, Nat.add_assoc]
    rfl

/-- From its first character on, all of a target is passed on. -/
theorem read_target_of_forwarded (hg : g.forwarded ≠ 0) :
    read o n cs (target f g) = (passes .outputTarget n cs
      ++ [Event.leaving .outputTarget (n + Text.byteSize cs) none,
        .leaving .outputRedirect (n + Text.byteSize cs) none], none) := by
  induction cs generalizing n g with
  | nil => simp [read, feed, delay, finish, hg, passes]
  | cons ch cs ih =>
    have hnext : next o n ch (target f g)
        = ([.character .outputTarget ch n], .ok (target f g.counted)) := by
      simp [next, onTarget, hg]
    rw [read_cons hnext, ih (by simp [Opening.counted]), Text.byteSize_cons, Nat.add_assoc]
    rfl

theorem exists_read_target (hg : g.forwarded = 0) (h : ∃ ch ∈ cs, o.isBlank ch = false) :
    ∃ m k, read o n cs (target f g) = (passes .outputTarget m (Text.trimStart o.isBlank cs)
      ++ [Event.leaving .outputTarget k none, .leaving .outputRedirect k none], none) := by
  induction cs generalizing n with
  | nil => simp at h
  | cons ch cs ih =>
    by_cases hblank : o.isBlank ch = true
    · have hnext : next o n ch (target f g) = ([], .ok (target f g)) := by
        simp [next, onTarget, hblank, hg]
      obtain ⟨m, k, hread⟩ := ih (n := n + ch.utf8Size) (by simpa [hblank] using h)
      refine ⟨m, k, ?_⟩
      rw [read_cons hnext, hread, Text.trimStart, Text.trimStart, List.dropWhile_cons_of_pos hblank]
      rfl
    · have hnext : next o n ch (target f g)
          = ([.character .outputTarget ch n], .ok (target f g.counted)) := by
        simp [next, onTarget, hblank]
      refine ⟨n, n + ch.utf8Size + Text.byteSize cs, ?_⟩
      rw [read_cons hnext, read_target_of_forwarded (by simp [Opening.counted]), Text.trimStart,
        List.dropWhile_cons_of_neg hblank]
      rfl

/-- Behind the marks a target is entered at whatever comes, except for another mark. -/
theorem read_redirect {ch : Char} (hch : ch ≠ '>') (cs : List Char) :
    read o n (ch :: cs) (redirect f) = delay [.entered .outputTarget n]
      (read o n (ch :: cs) (target f { offset := n, opener := ch })) :=
  read_opening (by simp only [next, if_neg hch]) cs

theorem read_redirect_of_blanks (hhead : cs.head? ≠ some '>')
    (h : ∀ ch ∈ cs, o.isBlank ch = true) :
    ∃ e, (read o n cs (redirect f)).2 = some e ∧ e.cause = .emptyRedirectTarget
      ∧ e.offset = n + Text.byteSize cs := by
  cases cs with
  | nil => exact ⟨_, rfl, rfl, rfl⟩
  | cons ch cs =>
    rw [read_redirect (by simpa using hhead), read_target_of_blanks rfl h]
    exact ⟨_, rfl, rfl, rfl⟩

theorem exists_read_redirect (hhead : cs.head? ≠ some '>') (h : ∃ ch ∈ cs, o.isBlank ch = false) :
    ∃ m k l, read o n cs (redirect f) = (.entered .outputTarget m
      :: passes .outputTarget l (Text.trimStart o.isBlank cs)
        ++ [Event.leaving .outputTarget k none, .leaving .outputRedirect k none], none) := by
  cases cs with
  | nil => simp at h
  | cons ch cs =>
    obtain ⟨m, k, hread⟩ := exists_read_target (n := n) (f := f)
      (g := { offset := n, opener := ch }) rfl h
    refine ⟨n, k, m, ?_⟩
    rw [read_redirect (by simpa using hhead), hread]
    rfl

/-- A third mark is one too many. -/
theorem read_redirect_of_mark (hf : f.forwarded ≠ 0) :
    ∃ e, (read o n ('>' :: cs) (redirect f)).2 = some e ∧ e.cause = .unexpectedCharacter
      ∧ e.offset = n := by
  have hnext : next o n '>' (redirect f) = unexpected .outputRedirect n '>' := by
    simp [next, hf]
  rw [read_cons_of_error hnext]
  exact ⟨_, rfl, rfl, rfl⟩

end Marks

end Place

/-- The request with the target that is passed on. -/
theorem Progress.done_of_target {o : Options} {r : Request} {mode : RedirectMode} {cs : List Char}
    (m n k : Nat) :
    ((Event.entered .outputTarget m :: passes .outputTarget n (Text.trimStart o.isBlank cs)
        ++ [Event.leaving .outputTarget k none, .leaving .outputRedirect k none]).foldl (take o)
      { done := r, draft := .redirect mode [] }).done
      = { r with redirect := some { mode, target := String.ofList (Text.trim o.isBlank cs) } } := by
  have htext : ∀ cs : List Char, Draft.text o (cs.map fun ch => (ch, false))
      = String.ofList (Text.trim o.isBlank cs) := by
    intro cs
    rw [Draft.text, Text.trimLoose_of_unkept (by simp), List.map_map]
    exact congrArg (fun cs => String.ofList (Text.trim o.isBlank cs)) (List.map_id cs)
  have htrim : Text.trim o.isBlank (Text.trimStart o.isBlank cs) = Text.trim o.isBlank cs := by
    rw [Text.trim, Text.trim, Text.trimStart, Text.trimStart, List.dropWhile_idempotent]
  have hentered : take o { done := r, draft := .redirect mode [] } (.entered .outputTarget m)
      = { done := r, draft := .redirect mode [] } := rfl
  rw [List.cons_append, List.foldl_cons, hentered, List.foldl_append,
    foldl_take_passes (by simp) (by simp), Draft.addAll_redirect, ← htrim, ← htext]
  rfl

/-- Whether the request of a line has a redirection is seen from the place where the line ends. -/
theorem Place.redirect_into {o : Options} {n : Nat} {q : Place} {r : Request} {d : Draft}
    (hholds : q.Holds r d) (hok : (q.finish o n).2 = none) :
    (d.into o r).redirect = none ↔ ∀ f g, q ≠ target f g := by
  cases q with
  | start =>
    obtain ⟨rfl, hr⟩ := hholds
    exact iff_of_true hr.2.2 (by simp)
  | text w s =>
    cases s with
    | none =>
      refine iff_of_true ?_ (by simp)
      obtain ⟨hlabel, hfits⟩ := hholds
      cases w with
      | node f =>
        obtain ⟨type, rfl⟩ := Draft.isOf_of_label hlabel
        exact hfits.2.2
      | nodeName f g =>
        obtain ⟨type, name, rfl⟩ := Draft.isOf_of_label hlabel
        exact hfits.2.2
      | _ => cases hok
    | _ => cases hok
  | literal f g v b k depth =>
    simp only [finish] at hok
    split at hok <;> cases hok
  | operation f =>
    obtain ⟨hlabel, hfits, -⟩ := hholds
    obtain ⟨name, rfl⟩ := Draft.isOf_of_label hlabel
    refine iff_of_true ?_ (by simp)
    rw [(Draft.into_operation o r name).2]
    exact hfits.2.2
  | list f => cases hok
  | requestEnd f =>
    obtain ⟨rfl, -, hr⟩ := hholds
    exact iff_of_true hr (by simp)
  | redirect f => cases hok
  | target f g =>
    obtain ⟨hlabel, -⟩ := hholds
    obtain ⟨mode, text, rfl⟩ := Draft.isOf_of_label hlabel
    exact iff_of_false (by simp [Draft.into]) (fun h => h f g rfl)

/-- The place where an accepted line ends. -/
theorem Request.exists_place_of_parse {o : Options} {line : String} {r : Request}
    (h : Request.parse o line = .ok r) :
    ∃ es q, Place.feed o 0 line.toList .start = (es, .ok q)
      ∧ (q.finish o (Text.byteSize line.toList)).2 = none
      ∧ (r.redirect = none ↔ ∀ f g, q ≠ .target f g) := by
  obtain ⟨hok, hr⟩ := Request.parse_eq_ok_iff_follow.mp h
  obtain ⟨es, q, hfeed, hread⟩ := Place.exists_feed_of_read hok
  rw [hread] at hok hr
  rw [Nat.zero_add] at hok
  obtain ⟨r', d, hkept, hholds⟩ : q.Keeps o ([] ++ es) :=
    Place.keeps_feed (Place.keeps_start o) hfeed
  have hsettles := Place.settles_finish hkept hholds (n := Text.byteSize line.toList) hok
  rw [Nat.zero_add] at hr
  obtain rfl : r = d.into o r' := hr.symm.trans hsettles.request
  exact ⟨es, q, hfeed, hok, Place.redirect_into hholds hok⟩

section Lines

variable {o : Options} {p : String} {r : Request}

theorem Request.endsBefore_of_parse (h : Request.parse o p = .ok r) (hr : r.redirect = none) :
    Place.EndsBefore o p.toList := by
  obtain ⟨es, q, hfeed, hok, hredirect⟩ := Request.exists_place_of_parse h
  exact ⟨es, q, hfeed, hredirect.mp hr, hok⟩

theorem Request.exists_parse_of_endsBefore (h : Place.EndsBefore o p.toList) :
    ∃ r, Request.parse o p = .ok r ∧ r.redirect = none := by
  obtain ⟨es, q, hfeed, hq, hok⟩ := h
  have hread : (Place.read o 0 p.toList .start).2 = none := by
    rw [Place.read, hfeed, Nat.zero_add]
    exact hok
  refine ⟨_, Request.parse_eq_ok_iff_follow.mpr ⟨hread, rfl⟩, ?_⟩
  obtain ⟨es', q', hfeed', -, hredirect⟩ :=
    Request.exists_place_of_parse (Request.parse_eq_ok_iff_follow.mpr ⟨hread, rfl⟩)
  rw [hfeed] at hfeed'
  cases hfeed'
  exact hredirect.mpr hq

/-- What comes behind the marks of a redirection is read from the redirection on. -/
theorem Request.read_marks (h : Request.parse o p = .ok r) (hr : r.redirect = none)
    (mode : RedirectMode) (t : String) :
    ∃ es f, f.forwarded = mode.repeated
      ∧ es.foldl (Progress.take o) {} = { done := r, draft := .redirect mode [] }
      ∧ Place.read o 0 (p ++ mode.render ++ t).toList .start
        = Place.delay es (Place.read o (Text.byteSize (p.toList ++ mode.marks)) t.toList
          (.redirect f)) := by
  obtain ⟨es, f, hfeed, hf, hfold⟩ := Place.feed_marks (Request.endsBefore_of_parse h hr) mode
  rw [(Request.parse_eq_ok_iff_progress.mp h).2] at hfold
  refine ⟨es, f, hf, hfold, ?_⟩
  have happend := Place.read_append hfeed t.toList
  rw [String.toList_append, String.toList_append]
  rwa [Nat.zero_add] at happend

theorem Request.parse_redirect (h : Request.parse o p = .ok r) (hr : r.redirect = none)
    (mode : RedirectMode) {t : String} (hhead : t.toList.head? ≠ some '>')
    (ht : ∃ ch ∈ t.toList, o.isBlank ch = false) :
    Request.parse o (p ++ mode.render ++ t) = .ok
      { r with
        redirect := some { mode, target := String.ofList (Text.trim o.isBlank t.toList) } } := by
  obtain ⟨es, f, -, hfold, hread⟩ := Request.read_marks h hr mode t
  obtain ⟨m, k, l, hrest⟩ := Place.exists_read_redirect
    (n := Text.byteSize (p.toList ++ mode.marks)) (f := f) hhead ht
  rw [Request.parse_eq_ok_iff_progress, hread, hrest]
  refine ⟨rfl, ?_⟩
  rw [Place.delay, List.foldl_append, hfold]
  exact Progress.done_of_target m l k

theorem Request.parse_redirect_of_blanks (h : Request.parse o p = .ok r) (hr : r.redirect = none)
    (mode : RedirectMode) {t : String} (ht : ∀ ch ∈ t.toList, o.isBlank ch = true) :
    ∃ stop e, Request.parse o (p ++ mode.render ++ t) = .error stop ∧ stop.error? = some e
      ∧ e.cause = .emptyRedirectTarget ∧ e.offset = (p ++ mode.render ++ t).utf8ByteSize := by
  have hhead : t.toList.head? ≠ some '>' := by
    intro hhead
    have hblank := ht '>' (List.mem_of_mem_head? hhead)
    rw [o.isBlank_of_isMark rfl] at hblank
    cases hblank
  obtain ⟨es, f, -, -, hread⟩ := Request.read_marks h hr mode t
  obtain ⟨e, he, hcause, hoffset⟩ := Place.read_redirect_of_blanks
    (n := Text.byteSize (p.toList ++ mode.marks)) (f := f) hhead ht
  have hfails : (Place.read o 0 (p ++ mode.render ++ t).toList .start).2 = some e := by
    rw [hread]
    exact he
  obtain ⟨stop, hstop, herror⟩ := Request.parse_error_of_read hfails
  refine ⟨stop, e, hstop, herror, hcause, ?_⟩
  rw [hoffset, ← Text.byteSize_append, ← Text.byteSize_toList, String.toList_append,
    String.toList_append, RedirectMode.marks]

theorem Request.parse_third_mark (h : Request.parse o p = .ok r) (hr : r.redirect = none)
    (u : String) :
    ∃ stop e, Request.parse o (p ++ ">>>" ++ u) = .error stop ∧ stop.error? = some e
      ∧ e.cause = .unexpectedCharacter ∧ e.offset = p.utf8ByteSize + 2 := by
  obtain ⟨es, f, hf, -, hread⟩ := Request.read_marks h hr .append (">" ++ u)
  have hline : p ++ RedirectMode.append.render ++ (">" ++ u) = p ++ ">>>" ++ u := by
    change p ++ ">>" ++ (">" ++ u) = p ++ (">>" ++ ">") ++ u
    simp only [String.append_assoc]
  have hsize : Text.byteSize (p.toList ++ RedirectMode.append.marks) = p.utf8ByteSize + 2 := by
    rw [Text.byteSize_append, Text.byteSize_toList]
    rfl
  have hmarked : f.forwarded ≠ 0 := by
    rw [hf]
    decide
  obtain ⟨e, he, hcause, hoffset⟩ : ∃ e,
      ((Place.redirect f).read o (p.utf8ByteSize + 2) ('>' :: u.toList)).2 = some e
        ∧ e.cause = .unexpectedCharacter ∧ e.offset = p.utf8ByteSize + 2 :=
    Place.read_redirect_of_mark hmarked
  rw [hline, hsize] at hread
  have hfails : (Place.read o 0 (p ++ ">>>" ++ u).toList .start).2 = some e := by
    rw [hread, String.toList_append]
    exact he
  obtain ⟨stop, hstop, herror⟩ := Request.parse_error_of_read hfails
  exact ⟨stop, e, hstop, herror, hcause, hoffset⟩

/-- A line with a redirection is a line without one, the marks and a target. -/
theorem Request.exists_of_redirect {line : String} {d : Redirect}
    (h : Request.parse o line = .ok r) (hd : r.redirect = some d) :
    ∃ p t, line = p ++ d.mode.render ++ t ∧ Request.parse o p = .ok { r with redirect := none }
      ∧ t.toList.head? ≠ some '>' ∧ (∃ ch ∈ t.toList, o.isBlank ch = false)
      ∧ d.target = String.ofList (Text.trim o.isBlank t.toList) := by
  obtain ⟨es, q, hfeed, hok, hredirect⟩ := Request.exists_place_of_parse h
  have hq : ∃ f g, q = .target f g := by
    by_contra hno
    simp only [not_exists] at hno
    rw [hredirect.mpr hno] at hd
    cases hd
  obtain ⟨f, g, rfl⟩ := hq
  obtain ⟨front, mode, first, rest, hfront, hfirst, hline⟩ := Place.redirected_feed hfeed
  let p := String.ofList front
  let t := String.ofList (first :: rest)
  have hline : line = p ++ mode.render ++ t := by
    rw [← String.toList_inj, hline, String.toList_append, String.toList_append,
      String.toList_ofList, String.toList_ofList, RedirectMode.marks]
  have hhead : t.toList.head? ≠ some '>' := by simpa [t, String.toList_ofList] using hfirst
  obtain ⟨r', hr', hnone⟩ := Request.exists_parse_of_endsBefore (o := o) (p := p)
    (by rwa [String.toList_ofList])
  have ht : ∃ ch ∈ t.toList, o.isBlank ch = false := by
    by_contra hblank
    obtain ⟨stop, -, hstop, -⟩ := Request.parse_redirect_of_blanks hr' hnone mode (t := t)
      (by simpa using hblank)
    rw [← hline, h] at hstop
    cases hstop
  have hparse := Request.parse_redirect hr' hnone mode hhead ht
  rw [← hline, h] at hparse
  obtain rfl := Except.ok.inj hparse
  obtain rfl := Option.some.inj hd
  refine ⟨p, t, hline, ?_, hhead, ht, rfl⟩
  rw [hr', ← hnone]

end Lines

/-- A redirection is the last part of a line, and its target is taken as it is written, less the
blanks around it: what a line without one gives, it gives with a target behind the marks as well.
Without a target the line is in error at its end, and at a third mark. There are no other lines with
a redirection. -/
theorem redirection_is_last_and_raw (o : Options) :
    (∀ (p : String) (r : Request), Request.parse o p = .ok r → r.redirect = none →
      (∀ (mode : RedirectMode) (t : String), t.toList.head? ≠ some '>' →
        ((∃ ch ∈ t.toList, o.isBlank ch = false) →
          Request.parse o (p ++ mode.render ++ t) = .ok
            { r with
              redirect := some { mode, target := String.ofList (Text.trim o.isBlank t.toList) } })
        ∧ ((∀ ch ∈ t.toList, o.isBlank ch = true) →
          ∃ stop e, Request.parse o (p ++ mode.render ++ t) = .error stop ∧ stop.error? = some e
            ∧ e.cause = .emptyRedirectTarget
            ∧ e.offset = (p ++ mode.render ++ t).utf8ByteSize))
      ∧ ∀ u, ∃ stop e, Request.parse o (p ++ ">>>" ++ u) = .error stop ∧ stop.error? = some e
        ∧ e.cause = .unexpectedCharacter ∧ e.offset = p.utf8ByteSize + 2)
    ∧ ∀ (line : String) (r : Request) (d : Redirect), Request.parse o line = .ok r →
      r.redirect = some d →
      ∃ p t, line = p ++ d.mode.render ++ t ∧ Request.parse o p = .ok { r with redirect := none }
        ∧ t.toList.head? ≠ some '>' ∧ (∃ ch ∈ t.toList, o.isBlank ch = false)
        ∧ d.target = String.ofList (Text.trim o.isBlank t.toList) :=
  ⟨fun _ _ h hr => ⟨fun mode _ hhead =>
      ⟨Request.parse_redirect h hr mode hhead, Request.parse_redirect_of_blanks h hr mode⟩,
    Request.parse_third_mark h hr⟩,
  fun _ _ _ => Request.exists_of_redirect⟩

/-- A quote in a target is a character like any other. -/
theorem redirection_to_open_quote :
    let r : Request := { address := [.node ⟨"a", none⟩], operation := some "b" }
    Request.parse {} "a:b" = .ok r ∧ r.redirect = none
      ∧ Request.parse {} ("a:b" ++ RedirectMode.append.render ++ " \"x> ")
        = .ok { r with redirect := some { mode := .append, target := "\"x>" } } := by
  intro r
  have hparse : Request.parse {} "a:b" = .ok r := by decide +kernel
  have htext : " \"x> ".toList = [' ', '"', 'x', '>', ' '] := rfl
  obtain ⟨haccepts, -⟩ := (redirection_is_last_and_raw {}).1 "a:b" r hparse rfl
  obtain ⟨htarget, -⟩ := haccepts .append " \"x> " (by rw [htext]; decide)
  refine ⟨hparse, rfl, (htarget ⟨'x', by rw [htext]; decide, rfl⟩).trans ?_⟩
  rw [htext]
  rfl

end RequestLine
