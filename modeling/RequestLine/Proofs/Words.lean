import RequestLine.Proofs.Segments

/-!
# Navigation words

The step of a segment is a navigation step if what is written in the segment, less its empty quoted
literals and the blanks around it, is a navigation word. Every segment of an accepted line closes
the literals it opens (`Sealed`), so its empty literals can be told from its source: if anything is
literal in it, a quote or a backslash is left when they are taken away (`Sealed.bare_cases`).
-/

namespace RequestLine

namespace Text

/-- The text without its empty quoted literals. -/
def withoutEmptyQuotes : List Char → List Char
  | '"' :: '"' :: cs => withoutEmptyQuotes cs
  | ch :: cs => ch :: withoutEmptyQuotes cs
  | [] => []

variable {ch : Char} {cs : List Char}

theorem withoutEmptyQuotes_cons (h : ch ≠ '"') :
    withoutEmptyQuotes (ch :: cs) = ch :: withoutEmptyQuotes cs := by
  rw [withoutEmptyQuotes]
  rintro _ rfl
  exact absurd rfl h

theorem withoutEmptyQuotes_quote_cons (h : ch ≠ '"') :
    withoutEmptyQuotes ('"' :: ch :: cs) = '"' :: withoutEmptyQuotes (ch :: cs) := by
  rw [withoutEmptyQuotes]
  rintro _ - hcs
  exact absurd (List.cons.inj hcs).1 h

theorem withoutEmptyQuotes_of_unquoted (h : '"' ∉ cs) : withoutEmptyQuotes cs = cs := by
  induction cs with
  | nil => rfl
  | cons ch cs ih =>
    rw [List.mem_cons, not_or] at h
    rw [withoutEmptyQuotes_cons (Ne.symm h.1), ih h.2]

theorem mem_withoutEmptyQuotes (hch : ch ≠ '"') (h : ch ∈ cs) : ch ∈ withoutEmptyQuotes cs := by
  fun_induction withoutEmptyQuotes cs with
  | case1 cs ih =>
    simp only [List.mem_cons, hch, false_or] at h
    exact ih h
  | case2 x cs _ ih =>
    rw [List.mem_cons] at h ⊢
    exact h.imp_right ih
  | case3 => cases h

theorem mem_trim {isBlank : Char → Bool} (hch : isBlank ch = false) (h : ch ∈ cs) :
    ch ∈ trim isBlank cs := by
  have hstart : ∀ {cs : List Char}, ch ∈ cs → ch ∈ trimStart isBlank cs := by
    intro cs h
    rw [← List.takeWhile_append_dropWhile (p := isBlank) (l := cs), List.mem_append] at h
    rcases h with h | h
    · rw [List.mem_takeWhile_imp h] at hch
      cases hch
    · exact h
  rw [trim, trimEnd, List.mem_reverse]
  exact hstart (List.mem_reverse.mpr (hstart h))

end Text

namespace Glyph

/-- The characters of the line that the glyphs are. -/
def source (gs : List Glyph) : List Char :=
  gs.map ch

/-- The segments of the address at the beginning of the glyphs. -/
def segments (gs : List Glyph) : List (List Glyph) :=
  (gs.takeWhile fun g => !g.endsAddress).splitOnP (separates '/')

theorem stepsOf_eq (text : List Glyph → String) (gs : List Glyph) :
    stepsOf text gs = (segments gs).filterMap (stepIn text) :=
  rfl

theorem source_glyphs (o : Options) (n : Nat) (s : Setting) (k : Cover) (cs : List Char) :
    source (glyphs o n s k cs) = cs := by
  induction cs generalizing n s k with
  | nil => rfl
  | cons ch cs ih => exact congrArg (ch :: ·) (ih _ _ _)

variable {g : Glyph} {gs : List Glyph}

theorem segments_of_end (h : g.endsAddress = true) : segments (g :: gs) = [[]] := by
  rw [segments, List.takeWhile_cons, h]
  rfl

theorem segments_of_slash (h : g.separates '/' = true) :
    segments (g :: gs) = [] :: segments gs := by
  rw [segments, List.takeWhile_cons, not_endsAddress (by decide) h]
  simp [List.splitOnP_cons_eq_if_modifyHead, h, segments]

theorem segments_cons (hends : g.endsAddress = false) (hslash : g.separates '/' = false) :
    segments (g :: gs) = (segments gs).modifyHead (g :: ·) := by
  rw [segments, List.takeWhile_cons, hends]
  simp [List.splitOnP_cons_eq_if_modifyHead, hslash, segments]

end Glyph

/-- Read from the cover `k` on, the glyphs of an address end outside of all literals. -/
inductive Sealed (o : Options) : Cover → List Glyph → Prop
  | nil : Sealed o .bare []
  | cons {k : Cover} {g : Glyph} {gs : List Glyph} (hrole : g.role = (k.read o .address g.ch).1)
    (h : Sealed o (k.read o .address g.ch).2 gs) : Sealed o k (g :: gs)

/-- The address at the beginning of the glyphs has sealed segments, the first of which goes on from
the cover `k`. -/
def Seals (o : Options) (k : Cover) (gs : List Glyph) : Prop :=
  ∃ first rest, Glyph.segments gs = first :: rest ∧ Sealed o k first ∧ ∀ s ∈ rest, Sealed o .bare s

section Sealing

variable {o : Options} {k : Cover} {g : Glyph} {gs : List Glyph}

theorem seals_nil (o : Options) : Seals o .bare [] :=
  ⟨[], [], rfl, .nil, by simp⟩

/-- Only a plain glyph ends a segment, and then no literal is open. -/
theorem Seals.cons (hrole : g.role = (k.read o .address g.ch).1)
    (h : g.endsAddress = false → Seals o (k.read o .address g.ch).2 gs) : Seals o k (g :: gs) := by
  have hbare : ∀ {ch}, g.separates ch = true → k = .bare ∧ (k.read o .address g.ch).2 = .bare :=
    fun hg => Cover.read_of_plain (hrole ▸ (Glyph.separates_iff.mp hg).1)
  by_cases hends : g.endsAddress = true
  · have hk : k = .bare := by
      simp only [Glyph.endsAddress, Bool.or_eq_true] at hends
      rcases hends with (hg | hg) | hg <;> exact (hbare hg).1
    exact ⟨[], [], Glyph.segments_of_end hends, hk ▸ .nil, by simp⟩
  rw [Bool.not_eq_true] at hends
  obtain ⟨first, rest, hsegments, hfirst, hrest⟩ := h hends
  by_cases hslash : g.separates '/' = true
  · obtain ⟨rfl, hread⟩ := hbare hslash
    refine ⟨[], first :: rest, by rw [Glyph.segments_of_slash hslash, hsegments], .nil, ?_⟩
    rw [hread] at hfirst
    exact List.forall_mem_cons.mpr ⟨hfirst, hrest⟩
  · rw [Bool.not_eq_true] at hslash
    exact ⟨g :: first, rest, by rw [Glyph.segments_cons hends hslash, hsegments]; rfl,
      .cons hrole hfirst, hrest⟩

theorem Seals.sealed (h : Seals o .bare gs) : ∀ s ∈ Glyph.segments gs, Sealed o .bare s := by
  obtain ⟨first, rest, hsegments, hfirst, hrest⟩ := h
  rw [hsegments]
  exact List.forall_mem_cons.mpr ⟨hfirst, hrest⟩

end Sealing

/-- From a place inside of a segment on, the segments of an accepted line are sealed. -/
theorem Addressing.seals {o : Options} {done : List Step} {segment : List Glyph} {w : Owner}
    {p : Place} {c : Collector} (h : Addressing o done segment w p c) {n : Nat} (cs : List Char)
    (hok : (p.read o n cs).2 = none) : Seals o p.cover (glyphs o n .address p.cover cs) := by
  induction cs generalizing n done segment w p c with
  | nil =>
    have hfinish : (p.finish o n).2 = none := by
      simpa [Place.read, Place.feed, Place.delay] using hok
    have hbare : p.cover = .bare := by
      have howner := h.owner
      cases p with
      | text w s => cases s <;> first | rfl | cases hfinish
      | literal f x v b y depth =>
        simp only [Place.finish] at hfinish
        split at hfinish <;> cases hfinish
      | _ => rfl
    rw [hbare]
    exact seals_nil o
  | cons ch cs ih =>
    let g : Glyph := { ch, role := (p.cover.read o .address ch).1, offset := n }
    have hrole : g.role = (p.cover.read o w.setting g.ch).1 := by rw [h.setting]
    have hrest : ∀ {es q}, p.next o n ch = (es, .ok q) →
        (q.read o (n + ch.utf8Size) cs).2 = none := by
      intro es q hnext
      rwa [Place.read_cons hnext] at hok
    simp only [glyphs, Setting.after, ite_self]
    refine Seals.cons (g := g) rfl fun hends => ?_
    by_cases hmark : g.role = .plain → g.ch ∉ w.marks
    · obtain ⟨es, q, hspells, hnext⟩ := h.spell hrole hmark
      have hcover : q.cover = (p.cover.read o .address ch).2 := by rw [hspells.cover, h.setting]
      rw [← hcover]
      exact ih hnext (hrest hspells.next)
    simp only [Classical.not_imp, not_not] at hmark
    obtain ⟨hplain, hmark⟩ := hmark
    have hnoerror : ∀ es e, p.next o g.offset g.ch ≠ (es, .error e) := by
      intro es e hnext
      rw [Place.read_cons_of_error hnext] at hok
      cases hok
    have hbare : (p.cover.read o .address ch).2 = .bare := (Cover.read_of_plain hplain).2
    rw [hbare]
    rcases h.separator_cases hrole hplain hmark hnoerror with hg | hg | ⟨hg, f, rfl⟩
    · obtain ⟨es, q, f, hnext, hcover, haddressing⟩ := h.slash hrole hg
      have hseals := ih haddressing (hrest hnext)
      rwa [hcover] at hseals
    · rw [hends] at hg
      cases hg
    · obtain ⟨es, q, x, hnext, hcover, haddressing⟩ := h.separate hrole hg
      have hseals := ih haddressing (hrest hnext)
      rwa [hcover] at hseals

/-- The segments of an accepted line are sealed. -/
theorem Place.seals_start (o : Options) (n : Nat) (cs : List Char)
    (hok : (Place.start.read o n cs).2 = none) : Seals o .bare (glyphs o n .address .bare cs) := by
  induction cs generalizing n with
  | nil => exact seals_nil o
  | cons ch cs ih =>
    let f : Opening := { offset := n, opener := ch }
    have hstart : ∀ {es q}, Place.start.next o n ch = (es, .ok q) →
        (q.read o (n + ch.utf8Size) cs).2 = none := by
      intro es q hnext
      rwa [read_cons hnext] at hok
    by_cases hblank : o.isBlank ch = true
    · rw [glyphs_cons_of_blank hblank]
      have hread : Cover.bare.read o .address ch = (.plain, .bare) := by
        have hglyphs := glyphs_cons_of_blank hblank n .address []
        simp only [glyphs, List.cons.injEq, Glyph.mk.injEq, true_and, and_true] at hglyphs
        exact Prod.ext hglyphs (Cover.read_of_plain hglyphs).2
      refine Seals.cons (by rw [hread]) fun _ => ?_
      rw [hread]
      exact ih _ (hstart (by rw [next, if_pos hblank]))
    by_cases hslash : ch = '/'
    · have hnext : Place.start.next o n ch = ([.character .initial ch n, .entered .node n],
          .ok (.text (.node f) .none)) := by
        simp only [next, if_neg hblank, if_pos hslash, f]
      have haddressing : Addressing o [] [] (.node f) (.text (.node f) .none)
          (Collector.placed (.text (.node f) .none) { options := o }) :=
        .start rfl rfl rfl rfl rfl rfl
      have hseals := haddressing.seals cs (hstart hnext)
      subst hslash
      exact Seals.cons rfl fun _ => hseals
    by_cases hend : ch = ':' ∨ ch = '(' ∨ ch = '>'
    · refine Seals.cons rfl fun hends => ?_
      rcases hend with rfl | rfl | rfl <;> cases hends
    · have hopening : Place.start.next o n ch = after [.entered .node n]
          ((Place.text (.node f) .none).next o n ch) := by
        simp only [not_or] at hend
        simp only [next, if_neg hblank, if_neg hslash, if_neg hend.1, if_neg hend.2.1,
          if_neg hend.2.2, f]
      rw [read_opening hopening] at hok
      have haddressing : Addressing o [] [] (.node f) (.text (.node f) .none)
          (Collector.placed (.text (.node f) .none) { options := o }) :=
        .start rfl rfl rfl rfl rfl rfl
      exact haddressing.seals (ch :: cs) hok

/-- What is plain in the glyphs, if nothing is literal. -/
def Glyph.plain (gs : List Glyph) : List Char :=
  (gs.filterMap given?).map Prod.fst

/-- Either all literals of a sealed segment are empty quotes, or something that no navigation word
has is left without them: the quote of a literal that is not empty, or a backslash. -/
theorem Sealed.bare_cases {o : Options} : ∀ {gs : List Glyph}, Sealed o .bare gs →
    ((∀ g ∈ gs, g.role ≠ .literal) ∧ Text.withoutEmptyQuotes (Glyph.source gs) = Glyph.plain gs)
      ∨ (∃ g ∈ gs, g.role = .literal)
        ∧ ∃ ch ∈ Text.withoutEmptyQuotes (Glyph.source gs), ch = '"' ∨ ch = '\\'
  | [], _ => .inl ⟨by simp, rfl⟩
  | g :: gs, .cons hrole h => by
    by_cases hquote : g.ch = '"'
    · have hread : Cover.bare.read o .address g.ch = (.mark, .quotes) := by
        rw [Cover.read, if_pos hquote]
      rw [hread] at hrole h
      cases h with
      | @cons _ g' gs hrole' h =>
        by_cases hquote' : g'.ch = '"'
        · have hread' : Cover.quotes.read o .address g'.ch = (.mark, .bare) := by
            rw [Cover.read, if_pos hquote']
          rw [hread'] at hrole' h
          have hsource : Text.withoutEmptyQuotes (Glyph.source (g :: g' :: gs))
              = Text.withoutEmptyQuotes (Glyph.source gs) := by
            simp only [Glyph.source, List.map_cons, hquote, hquote', Text.withoutEmptyQuotes]
          have hplain : Glyph.plain (g :: g' :: gs) = Glyph.plain gs := by
            simp [Glyph.plain, Glyph.given?, hrole, hrole']
          rw [hsource, hplain]
          simpa [hrole, hrole'] using Sealed.bare_cases h
        · have hsource : '"' ∈ Text.withoutEmptyQuotes (Glyph.source (g :: g' :: gs)) := by
            simp only [Glyph.source, List.map_cons, hquote]
            rw [Text.withoutEmptyQuotes_quote_cons hquote']
            exact List.mem_cons_self
          refine .inr ⟨?_, '"', hsource, .inl rfl⟩
          by_cases hslash : g'.ch = '\\' && o.escapeRule = .backslash
          · rw [Cover.read, if_neg hquote', if_pos hslash] at h
            cases h with
            | @cons _ x gs hrole h => exact ⟨x, by simp, hrole⟩
          · rw [Cover.read, if_neg hquote', if_neg hslash] at hrole'
            exact ⟨g', by simp, hrole'⟩
    by_cases hslash : g.ch = '\\' && o.escapeRule = .backslash
    · have hread : Cover.bare.read o .address g.ch = (.mark, .escape) := by
        rw [Cover.read, if_neg hquote, if_pos hslash]
      rw [hread] at h
      have hch : g.ch = '\\' := by simpa using (Bool.and_eq_true_iff.mp hslash).1
      have hsource : '\\' ∈ Text.withoutEmptyQuotes (Glyph.source (g :: gs)) :=
        Text.mem_withoutEmptyQuotes (by decide) (by simp [Glyph.source, hch])
      cases h with
      | @cons _ x gs hrole h => exact .inr ⟨⟨x, by simp, hrole⟩, '\\', hsource, .inr rfl⟩
    · have hread : Cover.bare.read o .address g.ch = (.plain, .bare) := by
        rw [Cover.read, if_neg hquote, if_neg hslash]
        rfl
      rw [hread] at hrole h
      have hsource : Text.withoutEmptyQuotes (Glyph.source (g :: gs))
          = g.ch :: Text.withoutEmptyQuotes (Glyph.source gs) :=
        Text.withoutEmptyQuotes_cons hquote
      have hplain : Glyph.plain (g :: gs) = g.ch :: Glyph.plain gs := by
        simp [Glyph.plain, Glyph.given?, hrole]
      rw [hsource, hplain]
      rcases Sealed.bare_cases h with ⟨hnone, hgs⟩ | ⟨⟨x, hx, hliteral⟩, ch, hch, hkind⟩
      · exact .inl ⟨List.forall_mem_cons.mpr ⟨by simp [hrole], hnone⟩, by rw [hgs]⟩
      · exact .inr ⟨⟨x, List.mem_cons_of_mem g hx, hliteral⟩, ch, List.mem_cons_of_mem _ hch,
          hkind⟩

namespace Step

variable {word : String} {step : Step}

theorem word_cases (h : ofWord? word = some step) :
    (word = ".." ∧ step = parent) ∨ (word = "." ∧ step = current)
      ∨ (word = ".type" ∧ step = nodeType) := by
  unfold ofWord? at h
  split at h
  · rename_i hword
    exact .inl ⟨hword, (Option.some.inj h).symm⟩
  split at h
  · rename_i hword
    exact .inr (.inl ⟨hword, (Option.some.inj h).symm⟩)
  split at h
  · rename_i hword
    exact .inr (.inr ⟨hword, (Option.some.inj h).symm⟩)
  · cases h

theorem ne_node_of_word (h : ofWord? word = some step) (s : Segment) : step ≠ node s := by
  rcases word_cases h with ⟨-, rfl⟩ | ⟨-, rfl⟩ | ⟨-, rfl⟩ <;> simp

theorem word_injective {word' : String} (h : ofWord? word = some step)
    (h' : ofWord? word' = some step) : word' = word := by
  rcases word_cases h with ⟨rfl, rfl⟩ | ⟨rfl, rfl⟩ | ⟨rfl, rfl⟩ <;>
    rcases word_cases h' with ⟨rfl, h'⟩ | ⟨rfl, h'⟩ | ⟨rfl, h'⟩ <;> first | rfl | cases h'

/-- No navigation word has a character of the notation in it. -/
theorem not_mem_word (h : ofWord? word = some step) {ch : Char}
    (hch : ch = '=' ∨ ch = '"' ∨ ch = '\\') : ch ∉ word.toList := by
  rcases word_cases h with ⟨rfl, -⟩ | ⟨rfl, -⟩ | ⟨rfl, -⟩ <;> rcases hch with rfl | rfl | rfl <;>
    decide

end Step

/-- A step is a navigation step if its only text is bare and a navigation word. -/
theorem Collector.stepOf_eq_word_iff {literal : Bool} {type word : String} {name : Option String}
    {step : Step} (h : Step.ofWord? word = some step) :
    stepOf literal type name = some step ↔ name = none ∧ literal = false ∧ type = word := by
  have hnode : ∀ s, Step.node s ≠ step := fun s => (Step.ne_node_of_word h s).symm
  have hempty : word ≠ "" := by
    rintro rfl
    cases h
  cases name with
  | some name => simp [stepOf, hnode]
  | none =>
    simp only [stepOf]
    split
    · rename_i htype
      simp [htype, hempty.symm]
    split
    · rename_i hliteral
      simp [hliteral, hnode]
    · rename_i hliteral
      rw [Option.some.injEq]
      constructor
      · intro hstep
        rcases htype : Step.ofWord? type with _ | other
        · rw [htype] at hstep
          exact absurd hstep (hnode _)
        · rw [htype, Option.getD_some] at hstep
          exact ⟨trivial, by simpa using hliteral, Step.word_injective h (hstep ▸ htype)⟩
      · rintro ⟨-, -, rfl⟩
        rw [h]
        rfl

section Words

variable {o : Options} {segment : List Glyph}

theorem Glyph.cut_of_unseparated {ch : Char} (h : ∀ g ∈ segment, g.separates ch = false) :
    cut ch segment = (segment, none) := by
  induction segment with
  | nil => rfl
  | cons g segment ih =>
    rw [List.forall_mem_cons] at h
    simp only [cut, h.1, ih h.2, Bool.false_eq_true, if_false]

theorem Glyph.isSome_cut {ch : Char} (h : ∃ g ∈ segment, g.separates ch = true) :
    (cut ch segment).2.isSome = true := by
  induction segment with
  | nil => simp at h
  | cons g segment ih =>
    rw [cut]
    split
    · rfl
    · rename_i hg
      exact ih (by simpa [hg] using h)

/-- A text without literals is what is plain in it, less the blanks around. -/
theorem nodeText_of_unliteral (h : ∀ g ∈ segment, g.role ≠ .literal) :
    nodeText o segment = String.ofList (Text.trim o.isBlank (Glyph.plain segment)) := by
  have hkeeps : ¬ LosesBlank o segment := by
    rintro ⟨before, blank, after, rfl, -, ⟨g, hg, hliteral⟩, -⟩
    exact h g (List.mem_append_left _ hg) hliteral
  have hunkept : ∀ p ∈ segment.filterMap Glyph.given?, p.2 = false := by
    intro p hp
    obtain ⟨g, hg, hgiven⟩ := List.mem_filterMap.mp hp
    rcases hrole : g.role with _ | _ | _
    · simp only [Glyph.given?, hrole, Option.some.injEq] at hgiven
      rw [← hgiven]
    · simp [Glyph.given?, hrole] at hgiven
    · exact absurd hrole (h g hg)
  rw [(nodeText_eq_cook_iff o segment).mpr hkeeps, cook, Text.trimLoose_of_unkept hunkept,
    Glyph.plain]

/-- The source of the segment, less its empty quoted literals and then less the blanks around it. -/
def Glyph.word (o : Options) (segment : List Glyph) : String :=
  String.ofList (Text.trim o.isBlank (Text.withoutEmptyQuotes (source segment)))

/-- A character of the notation that is no part of empty quotes keeps a segment from being a
word. -/
theorem Glyph.word_ne {word : String} {step : Step} (hword : Step.ofWord? word = some step)
    {ch : Char} (hmem : ch ∈ Text.withoutEmptyQuotes (source segment))
    (hch : ch = '=' ∨ ch = '"' ∨ ch = '\\') : Glyph.word o segment ≠ word := by
  intro heq
  have hblank : o.isBlank ch = false :=
    o.isBlank_of_isMark (by rcases hch with rfl | rfl | rfl <;> rfl)
  refine Step.not_mem_word hword hch ?_
  rw [← heq, Glyph.word, String.toList_ofList]
  exact Text.mem_trim hblank hmem

theorem Glyph.mem_source_of_equals {g : Glyph} (hg : g ∈ segment) (hch : g.ch = '=') :
    '=' ∈ Text.withoutEmptyQuotes (source segment) :=
  Text.mem_withoutEmptyQuotes (by decide) (List.mem_map.mpr ⟨g, hg, hch⟩)

/-- No word has a literal or a `=` in it. -/
theorem Sealed.bare_of_word (h : Sealed o .bare segment) {word : String} {step : Step}
    (hword : Step.ofWord? word = some step) (heq : Glyph.word o segment = word) :
    ∀ g ∈ segment, g.role ≠ .literal ∧ g.ch ≠ '=' := by
  intro g hg
  refine ⟨?_, fun hch => Glyph.word_ne hword (Glyph.mem_source_of_equals hg hch) (.inl rfl) heq⟩
  rcases h.bare_cases with ⟨hnone, -⟩ | ⟨-, ch, hmem, hch⟩
  · exact hnone g hg
  · exact absurd heq (Glyph.word_ne hword hmem (.inr hch))

/-- The step of a segment is a navigation step if its source, less empty quotes and the blanks
around, is a navigation word. -/
theorem stepIn_eq_word_iff (h : Sealed o .bare segment) {word : String} {step : Step}
    (hword : Step.ofWord? word = some step) :
    stepIn (nodeText o) segment = some step ↔ Glyph.word o segment = word := by
  rw [stepIn]
  by_cases heq : ∃ g ∈ segment, g.separates '=' = true
  · have hname := Glyph.isSome_cut heq
    obtain ⟨g, hg, hsep⟩ := heq
    obtain ⟨-, hch⟩ := Glyph.separates_iff.mp hsep
    refine iff_of_false ?_ (Glyph.word_ne hword (Glyph.mem_source_of_equals hg hch) (.inl rfl))
    rw [Collector.stepOf_eq_word_iff hword, Option.map_eq_none_iff]
    rintro ⟨hnone, -⟩
    rw [hnone] at hname
    cases hname
  · have hcut : Glyph.cut '=' segment = (segment, none) := by
      refine Glyph.cut_of_unseparated fun g hg => ?_
      rw [← Bool.not_eq_true]
      exact fun hsep => heq ⟨g, hg, hsep⟩
    rw [hcut]
    dsimp only
    rw [Collector.stepOf_eq_word_iff hword]
    rcases h.bare_cases with ⟨hnone, hsource⟩ | ⟨⟨g, hg, hliteral⟩, ch, hmem, hch⟩
    · have hany : segment.any (fun g => decide (g.role = .literal)) = false := by
        simpa [List.any_eq_false] using hnone
      rw [nodeText_of_unliteral hnone, Glyph.word, hsource, hany]
      simp
    · refine iff_of_false ?_ (Glyph.word_ne hword hmem (.inr hch))
      rintro ⟨-, hany, -⟩
      rw [List.any_eq_false] at hany
      exact hany g hg (by simp [hliteral])

end Words

/-- The segments are what is written between the slashes up to the end of the address. -/
theorem Glyph.exists_source_eq (gs : List Glyph) :
    ∃ rest, source gs = ['/'].intercalate ((segments gs).map source) ++ rest
      ∧ ∀ ch ∈ rest.head?, ch = ':' ∨ ch = '(' ∨ ch = '>' := by
  induction gs with
  | nil => exact ⟨[], rfl, by simp⟩
  | cons g gs ih =>
    by_cases hends : g.endsAddress = true
    · refine ⟨source (g :: gs), by rw [segments_of_end hends]; rfl, ?_⟩
      simp only [endsAddress, Bool.or_eq_true, separates_iff] at hends
      simp only [source, List.map_cons, List.head?_cons, Option.mem_some_iff, forall_eq']
      tauto
    rw [Bool.not_eq_true] at hends
    obtain ⟨rest, hsource, hrest⟩ := ih
    refine ⟨rest, ?_, hrest⟩
    rcases hsegments : segments gs with _ | ⟨first, others⟩
    · exact absurd hsegments (List.splitOnP_ne_nil _ _)
    rw [hsegments] at hsource
    by_cases hslash : g.separates '/' = true
    · have hch := (separates_iff.mp hslash).2
      rw [segments_of_slash hslash, hsegments]
      simp only [source, List.map_cons, List.map_nil, hch] at hsource ⊢
      rw [hsource]
      rfl
    · rw [Bool.not_eq_true] at hslash
      rw [segments_cons hends hslash, hsegments]
      simp only [source, List.map_cons, List.modifyHead_cons] at hsource ⊢
      rw [hsource]
      cases others <;> rfl

/-- The address of an accepted line has a step for each segment in which anything is written. It is
a navigation step if and only if the source of the segment, less its empty quoted literals and the
blanks around it, is the navigation word. No segment with a character that is quoted or escaped, or
with a `=`, is one. -/
theorem navigation_words_of_segments {o : Options} {line : String} {r : Request}
    (h : Request.parse o line = .ok r) :
    let segments := Glyph.segments (glyphs o 0 .address .bare line.toList)
    (∃ rest, line.toList = ['/'].intercalate (segments.map Glyph.source) ++ rest
        ∧ ∀ ch ∈ rest.head?, ch = ':' ∨ ch = '(' ∨ ch = '>')
      ∧ r.address = segments.filterMap (stepIn (nodeText o))
      ∧ (∀ segment ∈ segments, ∀ word step, Step.ofWord? word = some step →
        (stepIn (nodeText o) segment = some step ↔ Glyph.word o segment = word)
        ∧ (stepIn (nodeText o) segment = some step →
          ∀ g ∈ segment, g.role ≠ .literal ∧ g.ch ≠ '='))
      ∧ ∀ segment ∈ segments, '"' ∉ Glyph.source segment →
        Glyph.word o segment = String.ofList (Text.trim o.isBlank (Glyph.source segment)) := by
  obtain ⟨hok, rfl⟩ := Request.parse_eq_ok_iff_follow.mp h
  refine ⟨?_, ?_, fun segment hsegment word step hword => ?_, fun segment _ hquote => ?_⟩
  · have hsource := Glyph.exists_source_eq (glyphs o 0 .address .bare line.toList)
    rwa [Glyph.source_glyphs] at hsource
  · rw [Place.address_start o 0 line.toList hok, Glyph.stepsOf_eq]
  · have hsealed := (Place.seals_start o 0 line.toList hok).sealed segment hsegment
    have hiff := stepIn_eq_word_iff hsealed hword
    exact ⟨hiff, fun hstep => hsealed.bare_of_word hword (hiff.mp hstep)⟩
  · rw [Glyph.word, Text.withoutEmptyQuotes_of_unquoted hquote]

/-- The empty quotes before the word are no part of it. -/
theorem navigation_word_behind_empty_quotes :
    let line := "\"\".."
    let segments := Glyph.segments (glyphs {} 0 .address .bare line.toList)
    Request.parse {} line = .ok { address := [.parent] }
      ∧ segments.map Glyph.source = [line.toList] ∧ Step.ofWord? ".." = some .parent
      ∧ segments.map (stepIn (nodeText {})) = [some .parent] := by
  intro line segments
  have hparse : Request.parse {} line = .ok { address := [.parent] } := by decide +kernel
  have hsource : segments.map Glyph.source = [line.toList] := by decide +kernel
  obtain ⟨-, -, hwords, -⟩ := navigation_words_of_segments hparse
  obtain ⟨segment, hsegment⟩ : ∃ segment, segments = [segment] := by
    rw [← List.length_eq_one_iff, ← List.length_map Glyph.source, hsource]
    rfl
  have hmem : segment ∈ segments := by rw [hsegment]; exact List.mem_singleton_self segment
  have hstep := (hwords segment hmem ".." .parent rfl).1.mpr (by
    rw [hsegment, List.map_singleton, List.cons.injEq] at hsource
    rw [Glyph.word, hsource.1]
    decide +kernel)
  exact ⟨hparse, hsource, rfl, by rw [hsegment, List.map_singleton, hstep]⟩

end RequestLine
