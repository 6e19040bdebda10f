import RequestLine.Proofs.Resemblance
import RequestLine.Proofs.Separation

/-!
# Blanks around separators

What separates, wherever it stands, passes nothing on, ends the text that is being read and begins
something that has no text yet (`Place.divides_next`). Blanks before it go to the end of the text
or nowhere (`Place.exists_feed_blanks`), and blanks behind it go to the beginning of the next one or
nowhere (`Place.exists_feed_of_isFresh`). So with the blanks a line is read on from a place that is
alike and with a draft that begins alike, and the two readings meet in the same request
(`Progress.Meets`). Only the mark of a redirect may stand next to its like, which a blank behind it
would prevent.
-/

namespace RequestLine

namespace Place

/-- No literal and no escape is open, and a blank that comes next is no error. -/
def isBare : Place → Bool
  | start | text _ .none | operation _ | list _ | requestEnd _ | target _ _ => true
  | _ => false

/-- Blanks are dropped here. -/
def skipsBlanks : Place → Bool
  | start | list _ | requestEnd _ => true
  | text w .none => w.skipsBlanks
  | operation f => f.forwarded = 0
  | target _ g => g.forwarded = 0
  | _ => false

/-- The place after a character that goes into the text. -/
def counted : Place → Place
  | text w s => text w.counted s
  | operation f => operation f.counted
  | target f g => target f g.counted
  | p => p

/-- The places differ in how many blanks were read. -/
inductive Padded : Place → Place → Prop
  | same (p : Place) : Padded p p
  | text {w w' : Owner} (h : w'.label = w.label) : Padded (.text w .none) (.text w' .none)
  | operation {f f' : Opening} (h : f'.forwarded = 0 ↔ f.forwarded = 0) :
    Padded (.operation f) (.operation f')
  | target {f f' g g' : Opening} (h : g'.forwarded = 0 ↔ g.forwarded = 0) :
    Padded (.target f g) (.target f' g')

variable {o : Options} {n : Nat} {ch : Char} {p p' q : Place} {us : List Char}

theorem next_of_skipsBlanks (hp : p.skipsBlanks = true) (hch : o.isBlank ch = true) :
    next o n ch p = ([], .ok p) := by
  cases p with
  | text w s =>
    cases s with
    | none =>
      have hw : w.skipsBlanks = true := hp
      simp [next, onText, hch, hw]
    | _ => cases hp
  | operation f =>
    have hf : f.forwarded = 0 := by simpa [skipsBlanks] using hp
    simp [next, onOperation, hch, hf]
  | target f g =>
    have hg : g.forwarded = 0 := by simpa [skipsBlanks] using hp
    simp [next, onTarget, hch, hg]
  | literal f g v b k depth => cases hp
  | redirect f => cases hp
  | _ => simp [next, hch]

theorem feed_of_skipsBlanks (hp : p.skipsBlanks = true) (hus : ∀ u ∈ us, o.isBlank u = true)
    (n : Nat) : feed o n us p = ([], .ok p) := by
  induction us generalizing n with
  | nil => rfl
  | cons u us ih =>
    rw [List.forall_mem_cons] at hus
    simp only [feed, next_of_skipsBlanks hp hus.1, ih hus.2, after, List.nil_append]

theorem next_of_isBare (hp : p.isBare = true) (hskip : p.skipsBlanks = false)
    (hch : o.isBlank ch = true) :
    next o n ch p = ([.character p.owning ch n], .ok p.counted) := by
  have hne : ∀ {x : Char}, Text.isMark x = true → ch ≠ x := fun hx => Options.ne_of_isBlank hch hx
  cases p with
  | text w s =>
    cases s with
    | none =>
      have hw : w.skipsBlanks = false := hskip
      have hmark : ch ∉ w.marks := fun hmem => hne (Owner.isMark_of_mem_marks hmem) rfl
      simp [next, onText, hw, hmark, hne (x := '"') rfl, hne (x := '\\') rfl, owning, counted]
    | _ => cases hp
  | operation f =>
    have hf : f.forwarded ≠ 0 := by simpa [skipsBlanks] using hskip
    simp [next, onOperation, hf, hne (x := '(') rfl, hne (x := '>') rfl, hne (x := ':') rfl,
      hne (x := '/') rfl, hne (x := '=') rfl, hne (x := ')') rfl, owning, counted]
  | target f g =>
    have hg : g.forwarded ≠ 0 := by simpa [skipsBlanks] using hskip
    simp [next, onTarget, hg, owning, counted]
  | literal f g v b k depth => cases hp
  | redirect f => cases hp
  | _ => cases hskip

theorem skipsBlanks_counted (hp : p.isBare = true) (hskip : p.skipsBlanks = false) :
    p.counted.isBare = true ∧ p.counted.skipsBlanks = false ∧ p.counted.owning = p.owning := by
  cases p with
  | text w s =>
    cases s with
    | none => exact ⟨rfl, by cases w <;> rfl, by cases w <;> rfl⟩
    | _ => cases hp
  | operation f => exact ⟨rfl, rfl, rfl⟩
  | target f g => exact ⟨rfl, rfl, rfl⟩
  | literal f g v b k depth => cases hp
  | redirect f => cases hp
  | _ => cases hskip

theorem padded_of_counted (hp : p.isBare = true) (hskip : p.skipsBlanks = false)
    (h : Padded p.counted p') : Padded p p' := by
  cases p with
  | text w s =>
    cases s with
    | none =>
      have hlabel : w.counted.label = w.label := by cases w <;> rfl
      cases h with
      | same => exact .text hlabel
      | text h => exact .text (h.trans hlabel)
    | _ => cases hp
  | operation f =>
    have hf : f.forwarded ≠ 0 := by simpa [skipsBlanks] using hskip
    cases h with
    | same => exact .operation (by simp [Opening.counted, hf])
    | operation h => exact .operation (by simp [Opening.counted] at h; simp [h, hf])
  | target f g =>
    have hg : g.forwarded ≠ 0 := by simpa [skipsBlanks] using hskip
    cases h with
    | same => exact .target (by simp [Opening.counted, hg])
    | target h => exact .target (by simp [Opening.counted] at h; simp [h, hg])
  | literal f g v b k depth => cases hp
  | redirect f => cases hp
  | _ => cases hskip

theorem exists_feed_of_isBare (hp : p.isBare = true) (hskip : p.skipsBlanks = false)
    (hus : ∀ u ∈ us, o.isBlank u = true) (n : Nat) :
    ∃ p', feed o n us p = (passes p.owning n us, .ok p') ∧ Padded p p' := by
  induction us generalizing n p with
  | nil => exact ⟨p, rfl, .same p⟩
  | cons u us ih =>
    rw [List.forall_mem_cons] at hus
    obtain ⟨hbare, hkeeps, howning⟩ := skipsBlanks_counted hp hskip
    obtain ⟨p', hfeed, hpadded⟩ := ih hbare hkeeps hus.2 (n + u.utf8Size)
    refine ⟨p', ?_, padded_of_counted hp hskip hpadded⟩
    simp only [feed, next_of_isBare hp hskip hus.1, hfeed, howning, after, passes,
      List.singleton_append]

end Place

/-- The event marks off parts of a line: a part begins behind its separator, or a segment, a
property or the list is ended by one. -/
def Event.separates : Event → Bool
  | .entered l _ =>
    l ∈ [Label.nodeName, .operationName, .propertyList, .propertyValue, .outputRedirect]
  | .leaving l _ (some _) => l ∈ [Label.node, .property, .propertyList]
  | _ => false

namespace Place

/-- At the place the text that comes next has not begun. -/
def IsFresh (p : Place) : Prop :=
  p.skipsBlanks = true ∨ (∃ f g, p = .text (.property f g) .none)
    ∨ ∃ f g v, p = .text (.propertyValue f g v) .none

/-- If the move separates it passes nothing on, and in the end something begins that has no text
yet. -/
def Divides (ch : Char) (move : Move) : Prop :=
  move.1.any Event.separates = true → ∃ es l n q, move = (es ++ [.entered l n], .ok q)
    ∧ (∀ e ∈ es, e.isQuiet = true) ∧ l.beginsText = true ∧ (ch ≠ '>' → q.IsFresh)

variable {o : Options} {n : Nat} {ch : Char} {p p' q : Place} {us : List Char}

section Dividing

variable {w w' : Owner} {x : Event} {l : Label} {move : Move}

theorem Divides.of_none (h : move.1.any Event.separates = false) : Divides ch move := by
  intro hsep
  rw [h] at hsep
  cases hsep

theorem Divides.enter (hl : l.beginsText = true) (hq : ch ≠ '>' → q.IsFresh) :
    Divides ch ([.entered l n], .ok q) :=
  fun _ => ⟨[], l, n, q, rfl, by simp, hl, hq⟩

theorem Divides.leave (hx : x.isQuiet = true) (hl : l.beginsText = true)
    (hq : ch ≠ '>' → q.IsFresh) : Divides ch ([x, .entered l n], .ok q) :=
  fun _ => ⟨[x], l, n, q, rfl, by simpa using hx, hl, hq⟩

theorem Divides.after (h : Divides ch move) (hx : x.isQuiet = true) (hsep : x.separates = false) :
    Divides ch (after [x] move) := by
  intro hany
  rw [Place.after, List.singleton_append, List.any_cons, hsep, Bool.false_or] at hany
  obtain ⟨es, l, n, q, rfl, hes, hl, hq⟩ := h hany
  exact ⟨x :: es, l, n, q, rfl, List.forall_mem_cons.mpr ⟨hx, hes⟩, hl, hq⟩

theorem divides_endSegment (hch : ch ∈ ['/', ':', '(', '>']) : Divides ch (endSegment n ch) := by
  unfold endSegment
  dsimp only
  split
  · exact .leave rfl rfl fun _ => .inl rfl
  split
  · exact .leave rfl rfl fun _ => .inl rfl
  split
  · exact .leave rfl rfl fun _ => .inl rfl
  · refine .leave rfl rfl fun hne => ?_
    simp_all

theorem divides_endList : Divides ch (endList n ch) :=
  .leave rfl rfl fun _ => .inl rfl

theorem divides_endProperty {f : Opening} : Divides ch (endProperty n ch f) := by
  unfold endProperty
  dsimp only
  split
  · exact .leave rfl rfl fun _ => .inr (.inl ⟨_, _, rfl⟩)
  · exact fun _ => ⟨[_, _], _, _, _, rfl, by simp [Event.isQuiet], rfl, fun _ => .inl rfl⟩

theorem divides_onMark (hmark : ch ∈ w.marks) : Divides ch (onMark n ch w) := by
  cases w with
  | node f =>
    simp only [onMark]
    split
    · exact .enter rfl fun _ => .inl rfl
    split
    · exact .of_none rfl
    · exact divides_endSegment (by simp_all [Owner.marks])
  | nodeName f g =>
    simp only [onMark]
    split
    · exact .of_none rfl
    split
    · exact .of_none rfl
    · exact (divides_endSegment (by simp_all [Owner.marks])).after rfl rfl
  | property f g =>
    simp only [onMark]
    split
    · exact .enter rfl fun _ => .inr (.inr ⟨_, _, _, rfl⟩)
    · exact divides_endProperty
  | propertyValue f g v =>
    simp only [onMark]
    split
    · rename_i b hb
      cases b <;> exact .of_none rfl
    · exact divides_endProperty.after rfl rfl

theorem divides_onText : Divides ch (onText o n ch w) := by
  unfold onText
  split
  · exact .of_none rfl
  split
  · exact .of_none rfl
  split
  · exact .of_none rfl
  split
  · exact divides_onMark (by assumption)
  · exact .of_none rfl

theorem divides_endOperation {f : Opening} (hl : l.beginsText = true)
    (hq : ch ≠ '>' → q.IsFresh) : Divides ch (endOperation n ch f l q) := by
  unfold endOperation
  dsimp only
  split
  · exact .of_none rfl
  · exact .leave rfl hl hq

theorem divides_onOperation {f : Opening} : Divides ch (onOperation o n ch f) := by
  unfold onOperation
  dsimp only
  split
  · exact .of_none rfl
  split
  · exact divides_endOperation rfl fun _ => .inl rfl
  split
  · exact divides_endOperation rfl fun hne => absurd (by assumption) hne
  split
  · exact .of_none rfl
  · exact .of_none rfl

theorem separates_onTarget {f g : Opening} :
    (onTarget o n ch f g).1.any Event.separates = false := by
  unfold onTarget
  split <;> rfl

/-- Where a character separates, the move ends what is read so far and begins something. -/
theorem divides_next (hp : p.isBare = true) : Divides ch (p.next o n ch) := by
  cases p with
  | start =>
    simp only [next]
    split
    · exact .of_none rfl
    split
    · exact .of_none rfl
    split
    · exact .enter rfl fun _ => .inl rfl
    split
    · exact .enter rfl fun _ => .inl rfl
    split
    · exact .enter rfl fun hne => absurd (by assumption) hne
    · exact divides_onText.after rfl rfl
  | text w s =>
    cases s with
    | none => exact divides_onText
    | _ => cases hp
  | literal f g v b k depth => cases hp
  | operation f => exact divides_onOperation
  | list f =>
    simp only [next]
    split
    · exact .of_none rfl
    split
    · exact divides_endList
    · exact divides_onText.after rfl rfl
  | requestEnd f =>
    simp only [next]
    split
    · exact .of_none rfl
    split
    · exact .leave rfl rfl fun hne => absurd (by assumption) hne
    · exact .of_none rfl
  | redirect f => cases hp
  | target f g => exact .of_none separates_onTarget

/-- Inside of literals and behind the mark of a redirect nothing separates. -/
theorem isBare_of_separates (h : (p.next o n ch).1.any Event.separates = true) :
    p.isBare = true := by
  cases p with
  | text w s =>
    cases s with
    | none => rfl
    | escape e => cases h
    | quotes x =>
      simp only [next, onQuoted] at h
      repeat' split at h
      all_goals cases h
    | quotesEscape x e => cases h
  | literal f g v b k depth =>
    simp only [next, onLiteral] at h
    repeat' split at h
    all_goals cases b <;> cases h
  | redirect f =>
    simp only [next, onTarget] at h
    repeat' split at h
    all_goals cases h
  | _ => rfl

/-- In a text nothing but a mark separates. -/
theorem mem_marks_of_separates (h : (onText o n ch w).1.any Event.separates = true) :
    ch ∈ w.marks := by
  by_contra hmark
  unfold onText at h
  rw [if_neg hmark] at h
  repeat' split at h
  all_goals cases h

/-- What separates does so however many blanks were read before. -/
theorem shifts_next_of_padded {d : Nat} (hpad : Padded p p')
    (h : (p.next o n ch).1.any Event.separates = true) :
    Shifts d (p.next o n ch) (p'.next o (n + d) ch) := by
  cases hpad with
  | same => exact shifts_next (.refl p)
  | text hlabel =>
    rename_i w w'
    have hmark := mem_marks_of_separates h
    have hmark' : ch ∈ w'.marks := Owner.marks_of_label hlabel ▸ hmark
    simp only [next]
    rw [onText_of_mark hmark, onText_of_mark hmark']
    exact shifts_onMark hlabel
  | operation hf =>
    simp only [next] at h ⊢
    unfold onOperation at h ⊢
    dsimp only at h ⊢
    simp only [hf]
    split at h
    · cases h
    rename_i hskip
    rw [if_neg hskip, if_neg hskip]
    split at h
    · rw [if_pos (by assumption), if_pos (by assumption)]
      exact shifts_endOperation hf .list
    rename_i hparen
    rw [if_neg hparen, if_neg hparen]
    split at h
    · rw [if_pos (by assumption), if_pos (by assumption)]
      exact shifts_endOperation hf (.redirect rfl)
    split at h
    all_goals cases h
  | target hg =>
    rw [next, separates_onTarget] at h
    cases h

end Dividing

end Place

/-- If what is read after `x` is accepted, then what is read after `x'` is too, and in the end both
have the same request up to offsets. -/
def Progress.Meets (o : Options) (x x' : Progress) (ending ending' : Place.Ending) : Prop :=
  ending.2 = none → ending'.2 = none
    ∧ (ending'.1.foldl (Progress.take o) x').done.unplaced
      = (ending.1.foldl (Progress.take o) x).done.unplaced

namespace Progress

variable {o : Options} {x x' x'' : Progress} {es es' : List Event}
  {ending ending' ending'' : Place.Ending}

theorem Meets.trans (h : Meets o x x' ending ending') (h' : Meets o x' x'' ending' ending'') :
    Meets o x x'' ending ending'' := by
  intro hok
  obtain ⟨hok', hsame⟩ := h hok
  obtain ⟨hok'', hsame'⟩ := h' hok'
  exact ⟨hok'', hsame'.trans hsame⟩

theorem Meets.delay (h : Meets o (es.foldl (take o) x) (es'.foldl (take o) x') ending ending') :
    Meets o x x' (Place.delay es ending) (Place.delay es' ending') := by
  intro hok
  obtain ⟨hok', hsame⟩ := h hok
  refine ⟨hok', ?_⟩
  rw [Place.delay, Place.delay, List.foldl_append, List.foldl_append]
  exact hsame

theorem Meets.delay_right (h : Meets o x (es'.foldl (take o) x') ending ending') :
    Meets o x x' ending (Place.delay es' ending') := by
  have hdelay : Meets o x x' (Place.delay [] ending) (Place.delay es' ending') := Meets.delay h
  exact hdelay

/-- What begins alike is read alike from places that are alike. -/
theorem Alike.meets (hx : Alike o (Text.BeginsAlike o.isBlank) x x') {p p' : Place}
    (hp : p.Alike p') (n d : Nat) (cs : List Char) :
    Meets o x x' (p.read o n cs) (p'.read o (n + d) cs) := by
  intro hok
  obtain ⟨hevents, haccepts⟩ := Place.read_shift (o := o) (n := n) (d := d) hp cs
  refine ⟨haccepts.mpr hok, ?_⟩
  rw [hevents]
  exact (hx.foldl_take _).done

end Progress

namespace Place

variable {o : Options} {n : Nat} {ch : Char} {p p' q : Place} {x : Progress}
  {us vs cs : List Char}

/-- The draft is of the text that is read at the place, and the name of an operation that has begun
is not empty. -/
structure InHand (p : Place) (x : Progress) : Prop where
  label : x.draft.label = p.owning
  name : ∀ f, p = .operation f → f.forwarded ≠ 0 → x.draft.current ≠ []

theorem inHand_of_feed {es : List Event} (h : feed o 0 cs .start = (es, .ok p)) :
    p.InHand (es.foldl (Progress.take o) {}) := by
  obtain ⟨hfold, hlabel⟩ := Progress.foldl_follow (o := o) (x := {}) (drafts_feed h)
  refine ⟨hlabel, ?_⟩
  rintro f rfl hf hcurrent
  obtain ⟨name, hdraft⟩ := Draft.isOf_of_label hlabel
  obtain ⟨r, d, hkept, hd, -, hlength⟩ : (operation f).Keeps o ([] ++ es) :=
    keeps_feed (keeps_start o) h
  obtain ⟨name', rfl⟩ := Draft.isOf_of_label hd
  have hsame := congrArg (fun c => c.operation.isEmpty) (hfold.symm.trans hkept.fold)
  rw [hdraft] at hcurrent
  rw [Progress.onto, hdraft] at hsame
  change (Field.pushAll name).isEmpty = (Field.pushAll name').isEmpty at hsame
  rw [Field.isEmpty_pushAll, Field.isEmpty_pushAll, show name = [] from hcurrent] at hsame
  rw [List.isEmpty_iff.mp hsame.symm] at hlength
  exact hf hlength.symm

theorem isLoose_of_blanks (hus : ∀ u ∈ us, o.isBlank u = true) :
    ∀ r ∈ us.map fun ch => (ch, false), Text.isLoose o.isBlank r = true := by
  intro r hr
  obtain ⟨u, hu, rfl⟩ := List.mem_map.mp hr
  simp [Text.isLoose, hus u hu]

theorem foldl_take_passes_owning (hp : p.isBare = true) (hskip : p.skipsBlanks = false) (n : Nat)
    (us : List Char) (x : Progress) :
    (passes p.owning n us).foldl (Progress.take o) x
      = { x with draft := x.draft.addAll (us.map fun ch => (ch, false)) } := by
  have howning : p.owning ≠ .initial ∧ p.owning ≠ .outputRedirect
      ∧ p.owning.isLiteral = false := by
    cases p with
    | text w s =>
      cases w <;> exact ⟨by simp [owning, Owner.label], by simp [owning, Owner.label], rfl⟩
    | operation f => exact ⟨by simp [owning], by simp [owning], rfl⟩
    | target f g => exact ⟨by simp [owning], by simp [owning], rfl⟩
    | literal f g v b k depth => cases hp
    | redirect f => cases hp
    | _ => cases hskip
  rw [Progress.foldl_take_passes howning.1 howning.2.1, howning.2.2]

/-- Blanks go to the end of the text that is being read, or nowhere. -/
theorem exists_feed_blanks (hp : p.isBare = true) (hx : p.InHand x)
    (hus : ∀ u ∈ us, o.isBlank u = true) (n : Nat) :
    ∃ bs p', feed o n us p = (bs, .ok p') ∧ Padded p p'
      ∧ Progress.Alike o (Text.ReadsAlike o.isBlank) x (bs.foldl (Progress.take o) x) := by
  rcases hskip : p.skipsBlanks with _ | _
  · obtain ⟨p', hfeed, hpadded⟩ := exists_feed_of_isBare hp hskip hus n
    refine ⟨_, p', hfeed, hpadded, ?_⟩
    rw [foldl_take_passes_owning hp hskip]
    refine ⟨rfl, Draft.alike_addAll _ (fun hlabel => ?_)
      (Text.readsAlike_append_loose (isLoose_of_blanks hus))⟩
    rw [hx.label] at hlabel
    cases p with
    | operation f => exact hx.name f rfl (by simpa [skipsBlanks] using hskip)
    | text w s => cases w <;> cases hlabel
    | _ => cases hlabel
  · exact ⟨[], p, feed_of_skipsBlanks hskip hus n, .same p, rfl, .refl .refl x.draft⟩

/-- Where a text has not begun they go before it, or nowhere. -/
theorem exists_feed_of_isFresh (hp : p.IsFresh) (hlabel : x.draft.label = p.owning)
    (hcurrent : x.draft.current = []) (hvs : ∀ v ∈ vs, o.isBlank v = true) (n : Nat) :
    ∃ bs p', feed o n vs p = (bs, .ok p') ∧ p.Alike p'
      ∧ Progress.Alike o (Text.BeginsAlike o.isBlank) x (bs.foldl (Progress.take o) x) := by
  have hself : ∀ ps, Text.BeginsAlike o.isBlank ps ps := fun _ => rfl
  by_cases hskip : p.skipsBlanks = true
  · exact ⟨[], p, feed_of_skipsBlanks hskip hvs n, .refl p, rfl, .refl hself x.draft⟩
  rw [Bool.not_eq_true] at hskip
  obtain ⟨w, rfl, hw⟩ :
      ∃ w, p = .text w .none ∧ (w.label = .property ∨ w.label = .propertyValue) := by
    rcases hp with hp | ⟨f, g, rfl⟩ | ⟨f, g, v, rfl⟩
    · rw [hskip] at hp
      cases hp
    · exact ⟨_, rfl, .inl rfl⟩
    · exact ⟨_, rfl, .inr rfl⟩
  obtain ⟨p', hfeed, hpadded⟩ := exists_feed_of_isBare (p := text w .none) rfl hskip hvs n
  refine ⟨_, p', hfeed, ?_, ?_⟩
  · cases hpadded with
    | same => exact .refl _
    | text h =>
      rename_i w'
      refine .text ?_ .none
      cases w <;> cases w' <;> simp_all [Owner.label] <;> constructor
  · rw [foldl_take_passes_owning rfl hskip]
    refine ⟨rfl, Draft.alike_addAll _ (fun hoperation => ?_) ?_⟩
    · rw [hlabel] at hoperation
      rcases hw with hw | hw <;> rw [owning, hw] at hoperation <;> cases hoperation
    · rw [hcurrent, List.nil_append]
      exact Text.beginsAlike_loose (isLoose_of_blanks hvs)

theorem meets_of_isFresh (hp : p.IsFresh) (hlabel : x.draft.label = p.owning)
    (hcurrent : x.draft.current = []) (hvs : ∀ v ∈ vs, o.isBlank v = true) (n : Nat)
    (cs : List Char) : Progress.Meets o x x (p.read o n cs) (p.read o n (vs ++ cs)) := by
  obtain ⟨bs, p', hfeed, halike, hbegins⟩ := exists_feed_of_isFresh hp hlabel hcurrent hvs n
  rw [read_append hfeed]
  exact Progress.Meets.delay_right (hbegins.meets halike _ _ cs)

/-- Behind a separator the draft is of what begins there, and its text has not begun. -/
theorem drafts_divided {es : List Event} {l : Label} {m : Nat}
    (hmove : p.next o n ch = (es ++ [Event.entered l m], .ok q)) (hx : x.draft.label = p.owning) :
    (∃ st, (Event.entered l m).drafts? (st, (es.foldl (Progress.take o) x).draft.label)
        = some q.status)
      ∧ ((es ++ [Event.entered l m]).foldl (Progress.take o) x).draft.label = q.owning := by
  have hmoves : Drafts p.status (p.next o n ch) := drafts_next
  have hdrafts := hmoves q (congrArg Prod.snd hmove)
  rw [hmove, status, ← hx] at hdrafts
  refine ⟨?_, (Progress.foldl_follow hdrafts).2⟩
  rw [List.foldlM_append] at hdrafts
  obtain ⟨s, hs, hlast⟩ := Option.bind_eq_some_iff.mp hdrafts
  rw [(Progress.foldl_follow (o := o) hs).2]
  refine ⟨s.1, ?_⟩
  rw [List.foldlM_cons] at hlast
  obtain ⟨s', hs', hnil⟩ := Option.bind_eq_some_iff.mp hlast
  rw [hs']
  exact hnil

/-- Blanks before a separator change nothing: what is before it reads alike, and what begins there
has no text. -/
theorem meets_before (hsep : (p.next o n ch).1.any Event.separates = true) (hx : p.InHand x)
    (hus : ∀ u ∈ us, o.isBlank u = true) (cs : List Char) :
    Progress.Meets o x x (p.read o n (ch :: cs)) (p.read o n (us ++ ch :: cs)) := by
  have hbare := isBare_of_separates hsep
  obtain ⟨bs, p', hfeed, hpadded, hpad⟩ := exists_feed_blanks hbare hx hus n
  obtain ⟨es, l, m, q, hmove, hquiet, hl, -⟩ := divides_next hbare hsep
  have hshift := shifts_next_of_padded (d := Text.byteSize us) hpadded hsep
  rw [read_append hfeed, read_cons hmove]
  rcases hmove' : p'.next o (n + Text.byteSize us) ch with ⟨es', e | q'⟩ <;>
    rw [hmove, hmove'] at hshift <;> cases hshift
  rename_i hq
  rw [read_cons hmove', delay_delay, Nat.add_right_comm]
  refine Progress.Meets.delay (Progress.Alike.meets ?_ hq _ _ _)
  obtain ⟨⟨st, hdrafts⟩, -⟩ := drafts_divided hmove hx.label
  have hbefore := hpad.foldl_quiet (d := Text.byteSize us) Text.comparison_readsAlike hquiet
  have hafter := hbefore.enter Text.comparison_readsAlike l m (m + Text.byteSize us)
  have hcurrent := Progress.current_enter hl hdrafts
  rw [← hbefore.draft.label] at hdrafts
  have hcurrent' := Progress.current_enter (n := m + Text.byteSize us) hl hdrafts
  rw [List.map_append, List.foldl_append, List.foldl_append, List.foldl_append]
  exact ⟨hafter.done, hafter.draft.of_current hcurrent hcurrent' rfl⟩

/-- Nor do blanks behind it, unless it is the mark of a redirect. -/
theorem meets_behind (hsep : (p.next o n ch).1.any Event.separates = true) (hx : p.InHand x)
    (hch : ch ≠ '>') (hvs : ∀ v ∈ vs, o.isBlank v = true) (cs : List Char) :
    Progress.Meets o x x (p.read o n (ch :: cs)) (p.read o n (ch :: (vs ++ cs))) := by
  obtain ⟨es, l, m, q, hmove, -, hl, hq⟩ := divides_next (isBare_of_separates hsep) hsep
  obtain ⟨⟨st, hdrafts⟩, hlabel⟩ := drafts_divided hmove hx.label
  have hcurrent : ((es ++ [Event.entered l m]).foldl (Progress.take o) x).draft.current = [] := by
    rw [List.foldl_append]
    exact Progress.current_enter hl hdrafts
  rw [read_cons hmove, read_cons hmove]
  exact Progress.Meets.delay (meets_of_isFresh (hq hch) hlabel hcurrent hvs _ cs)

/-- Where a line may end it may also end behind more blanks. -/
theorem finish_of_padded (h : Padded p p') (hok : (p.finish o n).2 = none) (d : Nat) :
    (p'.finish o (n + d)).1 = (p.finish o n).1.map (Event.shift d)
      ∧ (p'.finish o (n + d)).2 = none := by
  cases h with
  | same =>
    obtain ⟨hevents, haccepts⟩ := finish_shift (o := o) (n := n) (d := d) (.refl p)
    exact ⟨hevents, haccepts.mpr hok⟩
  | text h =>
    rename_i w w'
    cases w <;> cases w' <;> first | exact ⟨rfl, rfl⟩ | (cases h; done) | cases hok
  | operation hf =>
    simp only [finish] at hok ⊢
    split at hok
    · cases hok
    · rename_i hsome
      exact ⟨rfl, if_neg (mt hf.mp hsome)⟩
  | target hg =>
    simp only [finish] at hok ⊢
    split at hok
    · cases hok
    · rename_i hsome
      rw [if_neg (mt hg.mp hsome), if_neg hsome]
      exact ⟨rfl, rfl⟩

/-- Nor do blanks at the end of a line. -/
theorem meets_end (hx : p.InHand x) (hus : ∀ u ∈ us, o.isBlank u = true) :
    Progress.Meets o x x (p.read o n []) (p.read o n us) := by
  intro hok
  have hfinish : (p.finish o n).2 = none := hok
  have hbare : p.isBare = true := by
    cases p with
    | text w s => cases s <;> first | rfl | cases hfinish
    | literal f g v b k depth =>
      simp only [finish] at hfinish
      split at hfinish <;> cases hfinish
    | redirect f => cases hfinish
    | _ => rfl
  obtain ⟨bs, p', hfeed, hpadded, hpad⟩ := exists_feed_blanks hbare hx hus n
  obtain ⟨hevents, hok'⟩ := finish_of_padded hpadded hfinish (Text.byteSize us)
  have hread : p.read o n us = delay bs (p'.finish o (n + Text.byteSize us)) := by
    rw [read, hfeed]
  have hquiet : ∀ e ∈ (p.finish o n).1, e.isQuiet = true := by
    obtain ⟨ls, hls⟩ := finish_leavings (o := o) (n := n) p
    rw [hls]
    intro e he
    obtain ⟨l, -, rfl⟩ := List.mem_map.mp he
    rfl
  rw [hread]
  refine ⟨hok', ?_⟩
  rw [delay, List.foldl_append, hevents]
  exact (hpad.foldl_quiet Text.comparison_readsAlike hquiet).done

end Place

/-- The line is accepted, and its request is `r` up to the offsets of value separators. -/
def Request.ReadFrom (o : Options) (r : Request) (cs : List Char) : Prop :=
  ∃ r', Request.parse o (String.ofList cs) = .ok r' ∧ r'.unplaced = r.unplaced

/-- Readings of the rest of a line that meet give the same request. -/
theorem Request.readFrom_of_meets {o : Options} {line : String} {r : Request} {p : Place}
    {before rest rest' : List Char} {es : List Event} (h : Request.parse o line = .ok r)
    (hline : line.toList = before ++ rest) (hfeed : Place.feed o 0 before .start = (es, .ok p))
    (hmeets : Progress.Meets o (es.foldl (Progress.take o) {}) (es.foldl (Progress.take o) {})
      (p.read o (Text.byteSize before) rest) (p.read o (Text.byteSize before) rest')) :
    r.ReadFrom o (before ++ rest') := by
  obtain ⟨hok, hr⟩ := Request.parse_eq_ok_iff_progress.mp h
  have hread := Place.read_append hfeed
  simp only [Nat.zero_add] at hread
  rw [hline, hread] at hok hr
  have hwhole : Progress.Meets o {} {} (Place.delay es _) (Place.delay es _) := hmeets.delay
  obtain ⟨hok', hsame⟩ := hwhole hok
  refine ⟨_, Request.parse_eq_ok_iff_progress.mpr ⟨?_, rfl⟩, ?_⟩
  · rw [String.toList_ofList, hread]
    exact hok'
  · rw [String.toList_ofList, hread, hsame, hr]

theorem Request.readFrom_around_separator {o : Options} {line : String} {r : Request} {e : Event}
    (h : Request.parse o line = .ok r)
    (he : e ∈ (Request.run o Sink.record line #[]).consumer) (hsep : e.separates = true) :
    ∃ before ch rest, line.toList = before ++ ch :: rest ∧ e.offset = Text.byteSize before
      ∧ ∀ us vs : List Char, (∀ u ∈ us, o.isBlank u = true) → (∀ v ∈ vs, o.isBlank v = true) →
        (ch = '>' → vs = []) → r.ReadFrom o (before ++ (us ++ ch :: (vs ++ rest))) := by
  rw [← Array.mem_toList_iff, (Request.run_record o line).1] at he
  rcases Place.exists_of_mem_read he with
    ⟨before, ch, rest, es, p, hline, hfeed, he⟩ | ⟨es, p, -, he⟩
  · rw [Nat.zero_add] at he
    have hsep : (p.next o (Text.byteSize before) ch).1.any Event.separates = true :=
      List.any_eq_true.mpr ⟨e, he, hsep⟩
    obtain ⟨es', l, m, q, hmove, -⟩ := Place.divides_next (Place.isBare_of_separates hsep) hsep
    refine ⟨before, ch, rest, hline, ?_, fun us vs hus hvs hch => ?_⟩
    · exact (Place.spends_next q (congrArg Prod.snd hmove)).offset e he
    · have hx := Place.inHand_of_feed hfeed
      refine Request.readFrom_of_meets h hline hfeed ?_
      by_cases hmark : ch = '>'
      · rw [hch hmark]
        exact Place.meets_before hsep hx hus rest
      · exact (Place.meets_behind hsep hx hmark hvs rest).trans
          (Place.meets_before hsep hx hus (vs ++ rest))
  · obtain ⟨ls, hls⟩ := Place.finish_leavings (o := o) (n := 0 + Text.byteSize line.toList) p
    rw [hls] at he
    obtain ⟨l, -, rfl⟩ := List.mem_map.mp he
    cases hsep

/-- Blanks around separators, at the beginning and at the end of a line change nothing about its
request but the offsets of value separators; only behind the mark of a redirect they may matter. -/
theorem blanks_around_separators_do_not_matter {o : Options} {line : String} {r : Request}
    (h : Request.parse o line = .ok r) :
    (∀ e ∈ (Request.run o Sink.record line #[]).consumer, e.separates = true →
      ∃ before ch rest, line.toList = before ++ ch :: rest ∧ e.offset = Text.byteSize before
        ∧ ∀ us vs : List Char, (∀ u ∈ us, o.isBlank u = true) → (∀ v ∈ vs, o.isBlank v = true) →
          (ch = '>' → vs = []) → r.ReadFrom o (before ++ (us ++ ch :: (vs ++ rest))))
    ∧ ∀ us : List Char, (∀ u ∈ us, o.isBlank u = true) →
      r.ReadFrom o (us ++ line.toList) ∧ r.ReadFrom o (line.toList ++ us) := by
  refine ⟨fun e he hsep => Request.readFrom_around_separator h he hsep, fun us hus => ⟨?_, ?_⟩⟩
  · have hread : r.ReadFrom o ([] ++ (us ++ line.toList)) :=
      Request.readFrom_of_meets (p := .start) h rfl rfl
        (Place.meets_of_isFresh (.inl rfl) rfl rfl hus 0 line.toList)
    exact hread
  · obtain ⟨es, p, hfeed, -⟩ := Place.exists_feed_of_read (Request.parse_eq_ok_iff_progress.mp h).1
    exact Request.readFrom_of_meets h (List.append_nil _).symm hfeed
      (Place.meets_end (Place.inHand_of_feed hfeed) hus)

/-- The equals sign of a value may stand between blanks. -/
theorem blanks_around_equals_sign :
    let line := "a(b=c)"
    let r : Request :=
      { address := [.node ⟨"a", none⟩], properties := some [⟨"b", some "c", some 3⟩] }
    Request.parse {} line = .ok r
      ∧ .entered .propertyValue 3 ∈ (Request.run {} Sink.record line #[]).consumer
      ∧ r.ReadFrom {} "a(b = \tc)".toList := by
  intro line r
  have hparse : Request.parse {} line = .ok r := by decide +kernel
  have hentered : .entered .propertyValue 3 ∈ (Request.run {} Sink.record line #[]).consumer := by
    decide +kernel
  obtain ⟨before, ch, rest, hline, hoffset, hblanks⟩ :=
    (blanks_around_separators_do_not_matter hparse).1 _ hentered rfl
  have hsplit := Text.splitAtByte?_byteSize_append before (ch :: rest)
  rw [← hline, ← hoffset] at hsplit
  have hparts : Text.splitAtByte? 3 line.toList = some (['a', '(', 'b'], ['=', 'c', ')']) := by
    decide +kernel
  obtain ⟨rfl, hrest⟩ := Prod.mk.inj (Option.some.inj (hparts.symm.trans hsplit))
  obtain ⟨rfl, rfl⟩ := List.cons.inj hrest
  refine ⟨hparse, hentered, hblanks [' '] [' ', '\t'] ?_ ?_ (by decide)⟩
  · simp [Options.isBlank, Text.isPlainBlank]
  · simp [Options.isBlank, Text.isPlainBlank]

end RequestLine
