import RequestLine.Proofs.Gathering
import RequestLine.Proofs.Glyph

/-!
# Places and glyphs

A place inside a text knows the cover of the next character. A character that does not separate
keeps the text open, and the collector gives it to the field of the text's owner, as the role of
the character says (`Place.exists_spells`). Only nodes are special: as long as a node's type or
name has passed nothing on itself, plain blanks do not reach its field (`Owner.drops`).
-/

namespace RequestLine

namespace Owner

def setting : Owner → Setting
  | node _ | nodeName _ _ => .address
  | property _ _ => .propertyName
  | propertyValue _ _ _ => .propertyValue

/-- The glyph does not reach the field of the owner. -/
def drops (o : Options) (w : Owner) (g : Glyph) : Bool :=
  g.role = .plain && (o.isBlank g.ch && w.skipsBlanks)

/-- The owner after a glyph that does not separate. -/
def past (o : Options) (w : Owner) (g : Glyph) : Owner :=
  if g.role = .plain && !w.drops o g then w.counted else w

theorem separates_of_mem_marks {w : Owner} {g : Glyph} {ch : Char}
    (hmark : g.role = .plain → g.ch ∉ w.marks) (hch : ch ∈ w.marks) : g.separates ch = false := by
  by_contra hg
  obtain ⟨hplain, rfl⟩ := Glyph.separates_iff.mp (eq_true_of_ne_false hg)
  exact hmark hplain hch

/-- A glyph that does not separate leaves the setting. -/
theorem setting_past (o : Options) {w : Owner} {g : Glyph}
    (hmark : g.role = .plain → g.ch ∉ w.marks) :
    (w.past o g).setting = if g.role = .plain then w.setting.after g.ch else w.setting := by
  have hpast : (w.past o g).setting = w.setting := by
    rw [past]
    split
    · cases w <;> rfl
    · rfl
  rw [hpast]
  split
  · rename_i hplain
    have hch := hmark hplain
    cases w with
    | property f x => simp_all [marks, setting, Setting.after]
    | propertyValue f x v => simp_all [marks, setting, Setting.after]
    | _ => rfl
  · rfl

theorem ne_initial (w : Owner) : w.label ≠ .initial := by
  cases w <;> simp [label]

end Owner

/-- The states of literals and escapes, which own no text. -/
def Label.isLiteral (l : Label) : Bool :=
  l ∈ [quotes, escape, brackets, braces, parens]

namespace Collector

/-- The collector with what the glyph gives to the field of the state `l`. -/
def receive (l : Label) (g : Glyph) (c : Collector) : Collector :=
  match g.given? with
  | none => c
  | some (ch, keep) => c.give l ch keep

/-- The collector at a place. -/
def placed (p : Place) (c : Collector) : Collector :=
  { c.plain with stack := p.labels }

theorem foldl_follow_start (o : Options) (es : List Event) :
    es.foldl follow { options := o } = (es.foldl step { options := o }).plain :=
  (plain_foldl_step { options := o } es).symm

/-- What no event of a kind changes, no sequence of them changes. -/
theorem foldl_follow_eq {α : Type} (part : Collector → α) {P : Event → Prop}
    (hpart : ∀ c e, P e → part (c.follow e) = part c) {es : List Event} (h : ∀ e ∈ es, P e)
    (c : Collector) : part (es.foldl follow c) = part c := by
  induction es generalizing c with
  | nil => rfl
  | cons e es ih =>
    rw [List.foldl_cons, ih fun x hx => h x (List.mem_cons_of_mem e hx),
      hpart c e (h e List.mem_cons_self)]

@[simp] theorem placed_placed (p q : Place) (c : Collector) :
    (c.placed p).placed q = c.placed q := rfl

theorem stack_of_placed {p : Place} {c : Collector} (h : c.placed p = c) : c.stack = p.labels := by
  rw [← h]
  rfl

section Literals

variable {c : Collector} {p q : Place} {l : Label} {n : Nat}

theorem give_stack (c : Collector) (l : Label) (ch : Char) (keep : Bool) :
    (c.give l ch keep).stack = c.stack := by
  cases l <;> rfl

theorem follow_entered_literal (hl : l.isLiteral = true) (hc : c.stack = p.labels)
    (hq : q.labels = l :: p.labels) : c.follow (.entered l n) = c.placed q := by
  rw [placed, hq, ← hc]
  cases l <;> first | rfl | cases hl

theorem follow_leaving_literal {x : Option Char} (hl : l.isLiteral = true)
    (hc : c.stack = p.labels) (hq : q.labels = p.labels.tail) :
    c.follow (.leaving l n x) = c.placed q := by
  rw [placed, hq, ← hc]
  cases l <;> first | rfl | cases hl

theorem follow_character_text {ch : Char} {owner : Label} {keep : Bool} (hl : l ≠ .initial)
    (hc : c.stack = p.labels) (howner : textOwner p.labels = some (owner, keep))
    (hq : q.labels = p.labels) :
    c.follow (.character l ch n) = (c.give owner ch keep).placed q := by
  rw [follow_character hl (hc ▸ howner), placed, hq, ← hc, ← give_stack c owner ch keep]
  rfl

end Literals

end Collector

/-- The request of a line, from the events on its way through the places. -/
theorem Request.parse_eq_ok_iff_follow {o : Options} {line : String} {r : Request} :
    Request.parse o line = .ok r ↔ (Place.read o 0 line.toList .start).2 = none
      ∧ ((Place.read o 0 line.toList .start).1.foldl Collector.follow
        { options := o }).request = r := by
  rw [Request.parse_eq_ok_iff, Collector.foldl_follow_start]
  rfl

namespace Place

/-- The owner of the text that the place is in. -/
def owner? : Place → Option Owner
  | text w _ => some w
  | literal f g v _ _ _ => some (.propertyValue f g v)
  | _ => none

def cover : Place → Cover
  | text _ (.escape _) => .escape
  | text _ (.quotes _) => .quotes
  | text _ (.quotesEscape _ _) => .quotesEscape
  | literal _ _ _ b _ depth => .bracket b depth
  | _ => .bare

/-- A glyph that does not separate leads to the place `q`, and the collector gives it to the field
of the owner `w`. -/
structure Spells (o : Options) (w : Owner) (p : Place) (g : Glyph) (es : List Event) (q : Place) :
    Prop where
  next : p.next o g.offset g.ch = (es, .ok q)
  owner : q.owner? = some (w.past o g)
  cover : q.cover = (p.cover.read o w.setting g.ch).2
  fold : ∀ c : Collector, c.placed p = c → es.foldl Collector.follow c
    = (if w.drops o g then c else c.receive w.label g).placed q

section Spells

variable {o : Options} {w : Owner} {g : Glyph} {p q : Place} {es : List Event}

theorem Spells.of_covered (hrole : g.role ≠ .plain) (hnext : p.next o g.offset g.ch = (es, .ok q))
    (hq : q.owner? = some w) (hcover : q.cover = (p.cover.read o w.setting g.ch).2)
    (hfold : ∀ c : Collector, c.stack = p.labels →
      es.foldl Collector.follow c = (c.receive w.label g).placed q) : Spells o w p g es q := by
  have hpast : w.past o g = w := by simp [Owner.past, hrole]
  have hdrops : w.drops o g = false := by simp [Owner.drops, hrole]
  refine ⟨hnext, by rw [hpast, hq], hcover, fun c hc => ?_⟩
  rw [hdrops, hfold c (Collector.stack_of_placed hc)]
  rfl

theorem textOwner_text (w : Owner) (s : Shelter) :
    textOwner (text w s).labels = some (w.label, decide (s ≠ .none)) := by
  cases w <;> cases s <;> rfl

/-- The quote or the backslash that opens a literal or an escape. -/
theorem spells_opening {l : Label} {s s' : Shelter} (hrole : g.role = .mark)
    (hnext : (text w s).next o g.offset g.ch = ([.entered l g.offset], .ok (.text w s')))
    (hl : l.isLiteral = true) (hlabels : (text w s').labels = l :: (text w s).labels)
    (hcover : (text w s').cover = ((text w s).cover.read o w.setting g.ch).2) :
    Spells o w (text w s) g [.entered l g.offset] (text w s') := by
  refine .of_covered (by simp [hrole]) hnext rfl hcover fun c hc => ?_
  rw [List.foldl_cons, List.foldl_nil, Collector.follow_entered_literal hl hc hlabels]
  simp [Collector.receive, Glyph.given?, hrole]

/-- A character behind a backslash. -/
theorem spells_escaped {s s' : Shelter} (hrole : g.role = .literal) (hs : s ≠ .none)
    (hnext : (text w s).next o g.offset g.ch = onEscaped g.offset g.ch w s')
    (hlabels : (text w s').labels = (text w s).labels.tail)
    (hcover : (text w s').cover = ((text w s).cover.read o w.setting g.ch).2) :
    ∃ es, Spells o w (text w s) g es (text w s') := by
  refine ⟨_, .of_covered (by simp [hrole]) hnext rfl hcover fun c hc => ?_⟩
  have howner := textOwner_text w s
  rw [List.foldl_cons, List.foldl_cons, List.foldl_nil,
    Collector.follow_character_text (q := text w s) (by simp) hc howner rfl,
    Collector.follow_leaving_literal (p := text w s) rfl rfl hlabels, Collector.placed_placed]
  simp [Collector.receive, Glyph.given?, hrole, hs]

theorem spells_quoted {x : Opening}
    (hrole : g.role = (Cover.quotes.read o w.setting g.ch).1) :
    ∃ es q, Spells o w (text w (.quotes x)) g es q := by
  by_cases hquote : g.ch = '"'
  · have hmark : g.role = .mark := by simp [hrole, Cover.read, hquote]
    refine ⟨[.leaving .quotes g.offset (some g.ch)], .text w .none,
      .of_covered (by simp [hmark]) ?_ rfl ?_ fun c hc => ?_⟩
    · simp [Place.next, onQuoted, hquote]
    · simp [Place.cover, Cover.read, hquote]
    · rw [List.foldl_cons, List.foldl_nil,
        Collector.follow_leaving_literal (q := text w .none) rfl hc (by cases w <;> rfl)]
      simp [Collector.receive, Glyph.given?, hmark]
  by_cases hslash : g.ch = '\\' && o.escapeRule = .backslash
  · refine ⟨_, .text w (.quotesEscape x { offset := g.offset, opener := g.ch }), spells_opening
      ?_ ?_ (l := .escape) rfl rfl ?_⟩
    · simp only [hrole, Cover.read, if_neg hquote, hslash, if_true]
    · simp only [Place.next, onQuoted, if_neg hquote, hslash, if_true]
    · simp only [Place.cover, Cover.read, if_neg hquote, hslash, if_true]
  · have hliteral : g.role = .literal := by
      simp only [hrole, Cover.read, if_neg hquote, if_neg hslash]
    refine ⟨[.character .quotes g.ch g.offset], .text w (.quotes x.counted),
      .of_covered (by simp [hliteral]) ?_ rfl ?_ fun c hc => ?_⟩
    · simp only [Place.next, onQuoted, if_neg hquote, if_neg hslash]
    · simp only [Place.cover, Cover.read, if_neg hquote, if_neg hslash]
    · rw [List.foldl_cons, List.foldl_nil, Collector.follow_character_text
        (q := text w (.quotes x.counted)) (by simp) hc (textOwner_text w _) rfl]
      simp [Collector.receive, Glyph.given?, hliteral]

/-- A character of a bracket literal, its brackets included. -/
theorem spells_literal {f h v x : Opening} {b : Bracket} {depth : Nat}
    (hrole : g.role = ((Cover.bracket b depth).read o .propertyValue g.ch).1) :
    ∃ es q, Spells o (.propertyValue f h v) (literal f h v b x depth) g es q := by
  have hliteral : g.role = .literal := by
    simp only [hrole, Cover.read]
    repeat' split
    all_goals rfl
  have hgive : ∀ c : Collector, c.receive .propertyValue g = c.give .propertyValue g.ch true := by
    intro c
    simp [Collector.receive, Glyph.given?, hliteral]
  have howner : textOwner (literal f h v b x depth).labels = some (.propertyValue, true) := by
    cases b <;> rfl
  have hstays : ∀ {y : Opening} {d : Nat},
      next o g.offset g.ch (literal f h v b x depth)
        = ([.character b.label g.ch g.offset], .ok (literal f h v b y d)) →
      (literal f h v b y d).cover
        = ((literal f h v b x depth).cover.read o .propertyValue g.ch).2 →
      Spells o (.propertyValue f h v) (literal f h v b x depth) g
        [.character b.label g.ch g.offset] (literal f h v b y d) := by
    intro y d hnext hcover
    refine .of_covered (by simp [hliteral]) hnext rfl hcover fun c hc => ?_
    rw [List.foldl_cons, List.foldl_nil, Collector.follow_character_text
      (q := literal f h v b y d) (by cases b <;> simp [Bracket.label]) hc howner rfl]
    exact congrArg _ (hgive c).symm
  by_cases hopen : g.ch = b.opener
  · refine ⟨_, _, hstays (y := x.counted) (d := depth + 1) ?_ ?_⟩
    · simp only [Place.next, onLiteral, if_pos hopen]
    · simp only [Place.cover, Cover.read, if_pos hopen]
  by_cases hclose : g.ch = b.closer
  · by_cases hdepth : 0 < depth
    · refine ⟨_, _, hstays (y := x.counted) (d := depth - 1) ?_ ?_⟩
      · simp only [Place.next, onLiteral, if_neg hopen, if_pos hclose, if_pos hdepth]
      · simp only [Place.cover, Cover.read, if_neg hopen, if_pos hclose, if_pos hdepth]
    · refine ⟨[.character b.label g.ch g.offset, .leaving b.label g.offset (some g.ch)],
        text (.propertyValue f h v) .none, .of_covered (by simp [hliteral]) ?_ rfl ?_
        fun c hc => ?_⟩
      · simp only [Place.next, onLiteral, if_neg hopen, if_pos hclose, if_neg hdepth]
      · simp only [Place.cover, Cover.read, if_neg hopen, if_pos hclose, if_neg hdepth]
      · rw [List.foldl_cons, List.foldl_cons, List.foldl_nil, Collector.follow_character_text
          (q := literal f h v b x depth) (by cases b <;> simp [Bracket.label]) hc howner rfl,
          Collector.follow_leaving_literal (p := literal f h v b x depth)
            (q := text (.propertyValue f h v) .none) (by cases b <;> rfl) rfl rfl,
          Collector.placed_placed]
        exact congrArg _ (hgive c).symm
  · refine ⟨_, _, hstays (y := x.counted) (d := depth) ?_ ?_⟩
    · simp only [Place.next, onLiteral, if_neg hopen, if_neg hclose]
    · simp only [Place.cover, Cover.read, if_neg hopen, if_neg hclose]

/-- A character that opens a bracket literal. -/
theorem spells_bracket {f h v : Opening} {b : Bracket} (hch : g.ch = b.opener)
    (hread : Cover.bare.read o .propertyValue g.ch = (.literal, .bracket b 0))
    (hrole : g.role = .literal) :
    ∃ es q, Spells o (.propertyValue f h v) (text (.propertyValue f h v) .none) g es q := by
  have hmem : g.ch ∈ (Owner.propertyValue f h v).marks := by
    rw [hch]
    cases b <;> exact List.mem_of_elem_eq_true rfl
  let x : Opening := { offset := g.offset, opener := g.ch, forwarded := 1 }
  refine ⟨[.entered b.label g.offset, .character b.label g.ch g.offset], literal f h v b x 0,
    .of_covered (by simp [hrole]) ?_ rfl ?_ fun c hc => ?_⟩
  · have hopener : Bracket.ofOpener? g.ch = some b := Bracket.ofOpener?_eq_some_iff.mpr hch
    simp only [Place.next, onText_of_mark hmem, onMark, hopener, x]
  · exact (congrArg Prod.snd hread).symm
  · have howner : textOwner (literal f h v b x 0).labels = some (.propertyValue, true) := by
      cases b <;> rfl
    have henter : c.follow (.entered b.label g.offset) = c.placed (literal f h v b x 0) :=
      Collector.follow_entered_literal (by cases b <;> rfl) hc rfl
    rw [List.foldl_cons, List.foldl_cons, List.foldl_nil, henter, Collector.follow_character_text
      (q := literal f h v b x 0) (by cases b <;> simp [Bracket.label]) rfl howner rfl]
    simp only [Collector.receive, Glyph.given?, hrole]
    rfl

/-- A character that is no part of the notation. -/
theorem spells_plain (hquote : g.ch ≠ '"')
    (hslash : ¬ (g.ch = '\\' && o.escapeRule = .backslash) = true)
    (hread : Cover.bare.read o w.setting g.ch = (.plain, .bare)) (hrole : g.role = .plain)
    (hmark : g.ch ∉ w.marks) : ∃ es q, Spells o w (text w .none) g es q := by
  by_cases hblank : o.isBlank g.ch && w.skipsBlanks
  · have hdrops : w.drops o g = true := by simp only [Owner.drops, hrole, hblank]; rfl
    refine ⟨[], text w .none, ?_, ?_, ?_, fun c hc => ?_⟩
    · simp only [Place.next, onText, hblank, if_true]
    · simp [Place.owner?, Owner.past, hdrops]
    · simp only [Place.cover, hread]
    · rw [hdrops, if_pos rfl, hc, List.foldl_nil]
  · have hdrops : w.drops o g = false := by
      rw [Bool.not_eq_true] at hblank
      simp only [Owner.drops, hblank, Bool.and_false]
    refine ⟨[.character w.label g.ch g.offset], text w.counted .none, ?_, ?_, ?_, fun c hc => ?_⟩
    · simp only [Place.next, onText, if_neg hblank, if_neg hquote, if_neg hslash, if_neg hmark]
    · simp [Place.owner?, Owner.past, hdrops, hrole]
    · simp only [Place.cover, hread]
    · rw [hdrops, List.foldl_cons, List.foldl_nil, Collector.follow_character_text
        (q := text w.counted .none) w.ne_initial (Collector.stack_of_placed hc)
        (textOwner_text w .none) (by cases w <;> rfl)]
      simp [Collector.receive, Glyph.given?, hrole]

theorem spells_bare (hrole : g.role = (Cover.bare.read o w.setting g.ch).1)
    (hmark : g.role = .plain → g.ch ∉ w.marks) : ∃ es q, Spells o w (text w .none) g es q := by
  by_cases hquote : g.ch = '"'
  · have hblank : o.isBlank g.ch = false := o.isBlank_of_isMark (by rw [hquote]; rfl)
    refine ⟨_, .text w (.quotes { offset := g.offset, opener := g.ch }), spells_opening
      ?_ ?_ (l := .quotes) rfl rfl ?_⟩
    · simp only [hrole, Cover.read, if_pos hquote]
    · simp only [Place.next, onText, hblank, Bool.false_and, Bool.false_eq_true, if_false,
        if_pos hquote]
    · simp only [Place.cover, Cover.read, if_pos hquote]
  by_cases hslash : g.ch = '\\' && o.escapeRule = .backslash
  · have hblank : o.isBlank g.ch = false := by
      rw [Bool.and_eq_true, decide_eq_true_eq] at hslash
      exact o.isBlank_of_isMark (by rw [hslash.1]; rfl)
    refine ⟨_, .text w (.escape { offset := g.offset, opener := g.ch }), spells_opening
      ?_ ?_ (l := .escape) rfl rfl ?_⟩
    · simp only [hrole, Cover.read, if_neg hquote, hslash, if_true]
    · simp only [Place.next, onText, hblank, Bool.false_and, Bool.false_eq_true, if_false,
        if_neg hquote, hslash, if_true]
    · simp only [Place.cover, Cover.read, if_neg hquote, hslash, if_true]
  rcases hbracket : w.setting.bracket? g.ch with _ | b
  · have hread : Cover.bare.read o w.setting g.ch = (.plain, .bare) := by
      simp only [Cover.read, if_neg hquote, if_neg hslash, hbracket]
    rw [hread] at hrole
    exact spells_plain hquote hslash hread hrole (hmark hrole)
  · have hread : Cover.bare.read o w.setting g.ch = (.literal, .bracket b 0) := by
      simp only [Cover.read, if_neg hquote, if_neg hslash, hbracket]
    rw [hread] at hrole
    cases w with
    | propertyValue f h v =>
      exact spells_bracket (Bracket.ofOpener?_eq_some_iff.mp hbracket) hread hrole
    | _ => cases hbracket

/-- A character of a text that does not separate is given to the text's owner. -/
theorem exists_spells (hp : p.owner? = some w) (hrole : g.role = (p.cover.read o w.setting g.ch).1)
    (hmark : g.role = .plain → g.ch ∉ w.marks) : ∃ es q, Spells o w p g es q := by
  cases p with
  | text w' s =>
    obtain rfl := Option.some.inj hp
    cases s with
    | none => exact spells_bare hrole hmark
    | escape e =>
      obtain ⟨es, h⟩ : ∃ es, Spells o w' (text w' (.escape e)) g es (text w' .none) :=
        spells_escaped hrole (by simp) rfl rfl rfl
      exact ⟨es, _, h⟩
    | quotes x => exact spells_quoted hrole
    | quotesEscape x e =>
      obtain ⟨es, h⟩ : ∃ es, Spells o w' (text w' (.quotesEscape x e)) g es
          (text w' (.quotes x)) := spells_escaped hrole (by simp) rfl rfl rfl
      exact ⟨es, _, h⟩
  | literal f h v b x depth =>
    obtain rfl := Option.some.inj hp
    exact spells_literal hrole
  | _ => cases hp

/-- Only between literals a character can be plain. -/
theorem eq_text_of_plain {ch : Char} (hp : p.owner? = some w)
    (hplain : (p.cover.read o w.setting ch).1 = .plain) : p = text w .none := by
  have hcover := (Cover.read_of_plain hplain).1
  cases p with
  | text w' s =>
    obtain rfl := Option.some.inj hp
    cases s <;> first | rfl | cases hcover
  | literal f h v b x depth => cases hcover
  | _ => cases hp

end Spells

end Place

end RequestLine
