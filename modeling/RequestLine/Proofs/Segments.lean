import RequestLine.Proofs.Parts
import RequestLine.Proofs.Spelling

/-!
# The meaning of an address

An address is what stands before the first separating `:`, `(` or `>`, cut into segments at the
separating slashes and each segment cut at its first separating `=` (`stepIn`). The texts of a
segment are not all that is written in it, though: a node passes over blanks until it has passed
on a plain character itself, and the characters of a literal are not its own. So a blank between a
literal and what follows it is lost if nothing plain was written before (`nodeText_eq_cook_iff`).
`address_of_segments` says what an accepted line gives.
-/

namespace RequestLine

/-! ## The texts of a segment -/

namespace Glyph

/-- A blank that is written bare. -/
def isLoose (o : Options) (g : Glyph) : Bool :=
  g.role = .plain && o.isBlank g.ch

/-- A character other than a blank that is written bare. -/
def isInked (o : Options) (g : Glyph) : Bool :=
  g.role = .plain && !o.isBlank g.ch

/-- The glyphs that reach the field of a node's type or name. -/
def settled (o : Options) : List Glyph → List Glyph
  | [] => []
  | g :: gs =>
    if g.isInked o then g :: gs
    else if g.isLoose o then settled o gs
    else g :: settled o gs

/-- The glyph ends the address. -/
def endsAddress (g : Glyph) : Bool :=
  g.separates ':' || g.separates '(' || g.separates '>'

theorem not_endsAddress {g : Glyph} {ch : Char} (hch : ch ∉ [':', '(', '>'])
    (h : g.separates ch = true) : g.endsAddress = false := by
  have hg : g.ch = ch := (separates_iff.mp h).2
  simp only [List.mem_cons, List.not_mem_nil, or_false, not_or] at hch
  simp [endsAddress, separates, hg, hch]

theorem role_of_isLoose {o : Options} {g : Glyph} (h : g.isLoose o = true) : g.role = .plain := by
  rw [isLoose, Bool.and_eq_true, decide_eq_true_eq] at h
  exact h.1

/-- The four kinds of glyphs. -/
theorem kinds (o : Options) (g : Glyph) :
    (g.isInked o = true ∧ g.isLoose o = false ∧ g.given? = some (g.ch, false)
        ∧ o.isBlank g.ch = false)
      ∨ (g.isInked o = false ∧ g.isLoose o = true ∧ g.given? = some (g.ch, false)
        ∧ o.isBlank g.ch = true)
      ∨ (g.isInked o = false ∧ g.isLoose o = false ∧ g.given? = some (g.ch, true)
        ∧ g.role = .literal)
      ∨ g.isInked o = false ∧ g.isLoose o = false ∧ g.given? = none ∧ g.role = .mark := by
  rcases hrole : g.role with _ | _ | _
  · rcases hblank : o.isBlank g.ch with _ | _
    · exact .inl (by simp [isInked, isLoose, given?, hrole, hblank])
    · exact .inr (.inl (by simp [isInked, isLoose, given?, hrole, hblank]))
  · exact .inr (.inr (.inr (by simp [isInked, isLoose, given?, hrole])))
  · exact .inr (.inr (.inl (by simp [isInked, isLoose, given?, hrole])))

theorem settled_append (o : Options) (gs : List Glyph) (g : Glyph) :
    settled o (gs ++ [g]) =
      if g.isLoose o && !gs.any (isInked o) then settled o gs else settled o gs ++ [g] := by
  induction gs with
  | nil =>
    rcases g.kinds o with ⟨h₁, h₂, -⟩ | ⟨h₁, h₂, -⟩ | ⟨h₁, h₂, -⟩ | ⟨h₁, h₂, -⟩ <;>
      simp [settled, h₁, h₂]
  | cons x gs ih =>
    rw [List.cons_append, settled, settled, List.any_cons, ih]
    rcases x.kinds o with ⟨h₁, h₂, -⟩ | ⟨h₁, h₂, -⟩ | ⟨h₁, h₂, -⟩ | ⟨h₁, h₂, -⟩
    · simp [h₁]
    · simp [h₁, h₂]
    all_goals
      simp only [h₁, h₂, Bool.false_eq_true, if_false, Bool.false_or]
      split <;> rfl

theorem any_literal_settled (o : Options) (gs : List Glyph) :
    (settled o gs).any (·.role = .literal) = gs.any (·.role = .literal) := by
  induction gs with
  | nil => rfl
  | cons g gs ih =>
    rw [settled]
    split
    · rfl
    split
    · rename_i hloose
      simp [ih, role_of_isLoose hloose]
    · rw [List.any_cons, ih, List.any_cons]

end Glyph

/-- The text of a node's type or name that is written with the glyphs. -/
def nodeText (o : Options) (gs : List Glyph) : String :=
  cook o (Glyph.settled o gs)

/-- A blank that stands between two characters of the text is passed over: a literal comes before
it, but nothing that is written bare. -/
def LosesBlank (o : Options) (gs : List Glyph) : Prop :=
  ∃ (before : List Glyph) (blank : Glyph) (after : List Glyph), gs = before ++ blank :: after
    ∧ blank.isLoose o = true ∧ (∃ g ∈ before, g.role = .literal)
    ∧ (∀ g ∈ before, g.isInked o = false) ∧ ∃ g ∈ after, g.role = .literal ∨ g.isInked o = true

namespace Glyph

/-- What the glyphs give to a text that has begun. -/
def ending (o : Options) (gs : List Glyph) : List (Char × Bool) :=
  (gs.filterMap given?).rdropWhile (Text.isLoose o.isBlank)

/-- A blank of a text that has begun is passed over. -/
def Gap (o : Options) (gs : List Glyph) : Prop :=
  ∃ (before : List Glyph) (blank : Glyph) (after : List Glyph), gs = before ++ blank :: after
    ∧ blank.isLoose o = true ∧ (∀ g ∈ before, g.isInked o = false)
    ∧ ∃ g ∈ after, g.role = .literal ∨ g.isInked o = true

section Ending

variable {o : Options} {g : Glyph} {gs : List Glyph}

theorem ending_cons_of_kept {ch : Char} {keep : Bool} (hg : g.given? = some (ch, keep))
    (hloose : Text.isLoose o.isBlank (ch, keep) = false) :
    ending o (g :: gs) = (ch, keep) :: ending o gs := by
  rw [ending, List.filterMap_cons_some hg, Text.rdropWhile_cons, hloose]
  rfl

theorem ending_cons_of_blank {ch : Char} (hg : g.given? = some (ch, false))
    (hch : o.isBlank ch = true) :
    ending o (g :: gs) = if (ending o gs).isEmpty then [] else (ch, false) :: ending o gs := by
  rw [ending, List.filterMap_cons_some hg, Text.rdropWhile_cons]
  simp [Text.isLoose, hch, ending]

theorem ending_cons_of_mark (hg : g.given? = none) : ending o (g :: gs) = ending o gs := by
  rw [ending, List.filterMap_cons_none hg, ending]

theorem ending_eq_nil_iff :
    ending o gs = [] ↔ ¬ ∃ g ∈ gs, g.role = .literal ∨ g.isInked o = true := by
  induction gs with
  | nil => simp [ending]
  | cons g gs ih =>
    rw [List.exists_mem_cons_iff]
    rcases g.kinds o with ⟨hink, -, hg, hch⟩ | ⟨hink, -, hg, hch⟩ | ⟨hink, -, hg, hrole⟩ |
      ⟨hink, -, hg, hrole⟩
    · rw [ending_cons_of_kept hg (by simp [Text.isLoose, hch])]
      simp [hink]
    · have hrole : g.role ≠ .literal := by
        intro hrole
        simp [given?, hrole] at hg
      rw [ending_cons_of_blank hg hch]
      rcases hgs : ending o gs with _ | ⟨x, xs⟩
      · simpa [hink, hrole] using ih.mp hgs
      · have hsome := ih.not.mp (by rw [hgs]; simp)
        simpa [hink, hrole] using hsome
    · rw [ending_cons_of_kept hg (by simp [Text.isLoose])]
      simp [hrole]
    · rw [ending_cons_of_mark hg, ih]
      simp [hink, hrole]

theorem gap_cons : Gap o (g :: gs) ↔
    g.isLoose o = true ∧ (∃ x ∈ gs, x.role = .literal ∨ x.isInked o = true)
      ∨ g.isInked o = false ∧ Gap o gs := by
  constructor
  · rintro ⟨before, blank, after, hgs, hblank, hbefore, hafter⟩
    rcases before with _ | ⟨x, before⟩
    · obtain ⟨rfl, rfl⟩ := List.cons.inj hgs
      exact .inl ⟨hblank, hafter⟩
    · obtain ⟨rfl, rfl⟩ := List.cons.inj hgs
      rw [List.forall_mem_cons] at hbefore
      exact .inr ⟨hbefore.1, before, blank, after, rfl, hblank, hbefore.2, hafter⟩
  · rintro (⟨hloose, hgs⟩ | ⟨hink, before, blank, after, rfl, hblank, hbefore, hafter⟩)
    · exact ⟨[], g, gs, rfl, hloose, by simp, hgs⟩
    · exact ⟨g :: before, blank, after, rfl, hblank, List.forall_mem_cons.mpr ⟨hink, hbefore⟩,
        hafter⟩

theorem Gap.exists (h : Gap o gs) : ∃ g ∈ gs, g.role = .literal ∨ g.isInked o = true := by
  obtain ⟨before, blank, after, rfl, -, -, x, hx, hkind⟩ := h
  exact ⟨x, List.mem_append_right _ (List.mem_cons_of_mem _ hx), hkind⟩

/-- What reaches the field of a text that has begun is all of it, or the text is shorter. -/
theorem ending_settled (o : Options) (gs : List Glyph) :
    (¬ Gap o gs → ending o (settled o gs) = ending o gs)
      ∧ (Gap o gs → (ending o (settled o gs)).length < (ending o gs).length) := by
  induction gs with
  | nil => exact ⟨fun _ => rfl, fun ⟨before, _, _, h, _⟩ => by cases before <;> cases h⟩
  | cons g gs ih =>
    have hle : (ending o (settled o gs)).length ≤ (ending o gs).length := by
      by_cases hgap : Gap o gs
      · exact (ih.2 hgap).le
      · rw [ih.1 hgap]
    rw [gap_cons, settled]
    rcases g.kinds o with ⟨hink, hloose, -⟩ | ⟨hink, hloose, hg, hch⟩ | ⟨hink, hloose, hg, -⟩ |
      ⟨hink, hloose, hg, -⟩
    · simp [hink, hloose]
    · rw [hink, hloose, ending_cons_of_blank hg hch]
      by_cases hsome : ∃ x ∈ gs, x.role = .literal ∨ x.isInked o = true
      · have hne : ending o gs ≠ [] := ending_eq_nil_iff.not.mpr (not_not.mpr hsome)
        refine ⟨fun hno => absurd (.inl ⟨rfl, hsome⟩) hno, fun _ => ?_⟩
        simpa [hne] using Nat.lt_succ_of_le hle
      · have hnil : ending o gs = [] := ending_eq_nil_iff.mpr hsome
        have hgap : ¬ Gap o gs := fun h => hsome h.exists
        refine ⟨fun _ => ?_, fun h => ?_⟩
        · simpa [hnil] using (ih.1 hgap).trans hnil
        · rcases h with ⟨-, h⟩ | ⟨-, h⟩
          · exact absurd h hsome
          · exact absurd h hgap
    · have hkept : Text.isLoose o.isBlank (g.ch, true) = false := by simp [Text.isLoose]
      simp only [hink, hloose, Bool.false_eq_true, if_false, false_and, false_or, true_and,
        ending_cons_of_kept hg hkept, List.cons.injEq, List.length_cons, Nat.add_lt_add_iff_right]
      exact ih
    · simp only [hink, hloose, Bool.false_eq_true, if_false, false_and, false_or, true_and,
        ending_cons_of_mark hg]
      exact ih

end Ending

end Glyph

section Lost

variable {o : Options} {g : Glyph} {gs : List Glyph}

theorem losesBlank_cons : LosesBlank o (g :: gs) ↔ g.isInked o = false
    ∧ (LosesBlank o gs ∨ g.role = .literal ∧ Glyph.Gap o gs) := by
  constructor
  · rintro ⟨before, blank, after, hgs, hblank, ⟨x, hx, hliteral⟩, hbefore, hafter⟩
    rcases before with _ | ⟨y, before⟩
    · cases hx
    obtain ⟨rfl, rfl⟩ := List.cons.inj hgs
    rw [List.forall_mem_cons] at hbefore
    refine ⟨hbefore.1, ?_⟩
    rcases List.mem_cons.mp hx with rfl | hx
    · exact .inr ⟨hliteral, before, blank, after, rfl, hblank, hbefore.2, hafter⟩
    · exact .inl ⟨before, blank, after, rfl, hblank, ⟨x, hx, hliteral⟩, hbefore.2, hafter⟩
  · rintro ⟨hink, ⟨before, blank, after, rfl, hblank, ⟨x, hx, hliteral⟩, hbefore, hafter⟩ |
      ⟨hliteral, before, blank, after, rfl, hblank, hbefore, hafter⟩⟩
    · exact ⟨g :: before, blank, after, rfl, hblank, ⟨x, List.mem_cons_of_mem g hx, hliteral⟩,
        List.forall_mem_cons.mpr ⟨hink, hbefore⟩, hafter⟩
    · exact ⟨g :: before, blank, after, rfl, hblank, ⟨g, List.mem_cons_self, hliteral⟩,
        List.forall_mem_cons.mpr ⟨hink, hbefore⟩, hafter⟩

theorem LosesBlank.gap (h : LosesBlank o gs) : Glyph.Gap o gs := by
  obtain ⟨before, blank, after, hgs, hblank, -, hbefore, hafter⟩ := h
  exact ⟨before, blank, after, hgs, hblank, hbefore, hafter⟩

theorem cook_cons_of_literal (hg : g.given? = some (g.ch, true)) :
    cook o (g :: gs) = String.ofList (g.ch :: (Glyph.ending o gs).map Prod.fst) := by
  have hkept : Text.isLoose o.isBlank (g.ch, true) = false := by simp [Text.isLoose]
  rw [cook, Text.trimLoose, List.filterMap_cons_some hg,
    List.dropWhile_cons_of_neg (by simp [hkept]), ← List.filterMap_cons_some hg, ← Glyph.ending,
    Glyph.ending_cons_of_kept hg hkept, List.map_cons]

theorem cook_cons_of_mark (hg : g.given? = none) : cook o (g :: gs) = cook o gs := by
  rw [cook, List.filterMap_cons_none hg, cook]

end Lost

/-- The text of a node's type or name is what is written in it, unless a blank is lost. -/
theorem nodeText_eq_cook_iff (o : Options) (gs : List Glyph) :
    nodeText o gs = cook o gs ↔ ¬ LosesBlank o gs := by
  induction gs with
  | nil =>
    refine ⟨fun _ hlost => ?_, fun _ => rfl⟩
    obtain ⟨before, _, _, hgs, -⟩ := hlost
    cases before <;> cases hgs
  | cons g gs ih =>
    rw [losesBlank_cons, nodeText, Glyph.settled]
    rcases g.kinds o with ⟨hink, hloose, -⟩ | ⟨hink, hloose, hg, hch⟩ | ⟨hink, hloose, hg, hrole⟩ |
      ⟨hink, hloose, hg, hrole⟩
    · simp [hink]
    · have hplain := Glyph.role_of_isLoose hloose
      simp only [hink, hloose, hplain, Bool.false_eq_true, if_false, if_true, reduceCtorEq,
        false_and, or_false, true_and, cook_cons_of_blank hplain hch]
      exact ih
    · simp only [hink, hloose, hrole, Bool.false_eq_true, if_false, true_and,
        cook_cons_of_literal hg]
      obtain ⟨heq, hlt⟩ := Glyph.ending_settled o gs
      refine ⟨fun htext hlost => ?_, fun hno => ?_⟩
      · have hgap : Glyph.Gap o gs := hlost.elim LosesBlank.gap id
        have hlength := congrArg List.length (String.ofList_injective htext)
        simp only [List.length_cons, List.length_map] at hlength
        have := hlt hgap
        omega
      · rw [heq fun hgap => hno (.inr hgap)]
    · simp only [hink, hloose, hrole, Bool.false_eq_true, if_false, reduceCtorEq, false_and,
        or_false, true_and, cook_cons_of_mark hg]
      exact ih

/-- The step that a segment stands for, if its texts are read with `text`. -/
def stepIn (text : List Glyph → String) (segment : List Glyph) : Option Step :=
  let (type, name) := Glyph.cut '=' segment
  Collector.stepOf (type.any (·.role = .literal)) (text type) (name.map fun (_, gs) => text gs)

/-- The steps of the address at the beginning of the glyphs, if its texts are read with `text`. -/
def stepsOf (text : List Glyph → String) (gs : List Glyph) : List Step :=
  Glyph.pieces '/' (stepIn text) (gs.takeWhile fun g => !g.endsAddress)

/-! ## Reading the segments -/

theorem Field.kept_ofGlyphs (gs : List Glyph) :
    (Field.ofGlyphs gs).kept.isSome = gs.any (·.role = .literal) := by
  rw [ofGlyphs, kept_pushAll]
  induction gs with
  | nil => rfl
  | cons g gs ih =>
    rw [List.any_cons, ← ih]
    rcases hrole : g.role with _ | _ | _
    · simp [Glyph.given?, hrole]
    · simp [Glyph.given?, hrole]
    · simp [Glyph.given?, hrole]

theorem Field.ofGlyphs_settled_append (o : Options) (gs : List Glyph) (g : Glyph) :
    Field.ofGlyphs (Glyph.settled o (gs ++ [g])) =
      if g.isLoose o && !gs.any (Glyph.isInked o) then .ofGlyphs (Glyph.settled o gs)
      else (Field.ofGlyphs (Glyph.settled o gs)).add g := by
  rw [Glyph.settled_append]
  split
  · rfl
  · rw [ofGlyphs_append]

namespace Owner

theorem drops_eq (w : Owner) (o : Options) (g : Glyph) :
    w.drops o g = (g.isLoose o && w.skipsBlanks) := by
  rw [drops, Glyph.isLoose, Bool.and_assoc]

theorem skipsBlanks_past (w : Owner) (o : Options) (g : Glyph) :
    (w.past o g).skipsBlanks = (w.skipsBlanks && !g.isInked o) := by
  have hcounted : w.counted.skipsBlanks = false := by cases w <;> simp [counted, skipsBlanks,
    Opening.counted]
  rw [past, drops_eq]
  rcases hrole : g.role with _ | _ | _
  · rcases hblank : o.isBlank g.ch with _ | _
    · simp [Glyph.isInked, Glyph.isLoose, hrole, hblank, hcounted]
    · rcases hskips : w.skipsBlanks with _ | _
      · simp [Glyph.isLoose, hrole, hblank, hcounted]
      · simp [Glyph.isInked, Glyph.isLoose, hrole, hblank, hskips]
  · simp [Glyph.isInked, hrole]
  · simp [Glyph.isInked, hrole]

/-- The events of leaving the states of a text in an address. -/
def leavings (n : Nat) (x : Option Char) : Owner → List Event
  | nodeName _ _ => [.leaving .nodeName n x, .leaving .node n x]
  | _ => [.leaving .node n x]

end Owner

theorem Collector.receive_node (c : Collector) (g : Glyph) :
    c.receive .node g = { c with nodeType := c.nodeType.add g } := by
  rw [receive, Field.add]
  rcases g.given? with _ | ⟨ch, keep⟩ <;> rfl

theorem Collector.receive_nodeName (c : Collector) (g : Glyph) :
    c.receive .nodeName g = { c with nodeName := c.nodeName.map (·.add g) } := by
  rw [receive, Field.map_add]
  rcases g.given? with _ | ⟨ch, keep⟩ <;> rfl

section Following

variable {c : Collector} {q : Place} {n : Nat} {x : Option Char}

theorem Collector.follow_entered_nodeName (hq : q.labels = .nodeName :: c.stack) :
    c.follow (.entered .nodeName n) = Collector.placed q { c with nodeName := some {} } := by
  rw [placed, hq]
  rfl

theorem Collector.follow_leaving_nodeName (hq : q.labels = c.stack.tail) :
    c.follow (.leaving .nodeName n x) = c.placed q := by
  rw [placed, hq]
  rfl

theorem Collector.follow_leaving_node (hq : q.labels = c.stack.tail) :
    c.follow (.leaving .node n x) = c.finishSegment.placed q := by
  rw [follow_leaving, placed, hq]
  rfl

end Following

/-- The text of a segment that is being read. -/
def Glyph.current (segment : List Glyph) : List Glyph :=
  match Glyph.cut '=' segment with
  | (type, none) => type
  | (_, some (_, name)) => name

/-- At the place `p` of an address, inside a text of `w`, the glyphs `segment` of a segment have
been read after the steps `done`. -/
structure Addressing (o : Options) (done : List Step) (segment : List Glyph) (w : Owner) (p : Place)
    (c : Collector) : Prop where
  placed : c.placed p = c
  options : c.options = o
  address : c.request.address = done
  nodeType : c.nodeType = .ofGlyphs (Glyph.settled o (Glyph.cut '=' segment).1)
  nodeName : c.nodeName
    = (Glyph.cut '=' segment).2.map fun (_, name) => .ofGlyphs (Glyph.settled o name)
  owner : p.owner? = some w
  label : w.label = if (Glyph.cut '=' segment).2.isSome then .nodeName else .node
  skips : w.skipsBlanks = !(Glyph.current segment).any (Glyph.isInked o)
  noSlash : ∀ g ∈ segment, g.separates '/' = false

namespace Addressing

variable {o : Options} {done : List Step} {segment : List Glyph} {w : Owner} {p : Place}
  {c : Collector} {g : Glyph}

theorem owner_cases (h : Addressing o done segment w p c) :
    (∃ f type, w = .node f ∧ Glyph.cut '=' segment = (type, none))
      ∨ ∃ f x type e name, w = .nodeName f x ∧ Glyph.cut '=' segment = (type, some (e, name)) := by
  have hlabel := h.label
  rcases hcut : Glyph.cut '=' segment with ⟨type, _ | ⟨e, name⟩⟩ <;> rw [hcut] at hlabel
  · left
    cases w with
    | node f => exact ⟨f, type, rfl, rfl⟩
    | _ => cases hlabel
  · right
    cases w with
    | nodeName f x => exact ⟨f, x, type, e, name, rfl, rfl⟩
    | _ => cases hlabel

theorem mem_marks (h : Addressing o done segment w p c) {ch : Char}
    (hch : ch ∈ ['=', '/', ':', '(', '>', ')']) : ch ∈ w.marks := by
  rcases h.owner_cases with ⟨f, type, rfl, -⟩ | ⟨f, x, type, e, name, rfl, -⟩
  · exact hch
  · exact hch

theorem setting (h : Addressing o done segment w p c) : w.setting = .address := by
  rcases h.owner_cases with ⟨f, type, rfl, -⟩ | ⟨f, x, type, e, name, rfl, -⟩ <;> rfl

/-- A glyph that does not separate belongs to the segment. -/
theorem spell (h : Addressing o done segment w p c)
    (hrole : g.role = (p.cover.read o w.setting g.ch).1)
    (hmark : g.role = .plain → g.ch ∉ w.marks) :
    ∃ es q, Place.Spells o w p g es q
      ∧ Addressing o done (segment ++ [g]) (w.past o g) q (es.foldl Collector.follow c) := by
  obtain ⟨es, q, hspells⟩ := Place.exists_spells h.owner hrole hmark
  refine ⟨es, q, hspells, ?_⟩
  have hsep : ∀ ch ∈ ['=', '/', ':', '(', '>', ')'], g.separates ch = false := fun ch hch =>
    Owner.separates_of_mem_marks hmark (h.mem_marks hch)
  have heq := hsep '=' (List.mem_of_elem_eq_true rfl)
  have hnoSlash := Glyph.separates_append h.noSlash (hsep '/' (List.mem_of_elem_eq_true rfl))
  have hfold := hspells.fold c h.placed
  have hpast := w.skipsBlanks_past o g
  have hlabel : (w.past o g).label = w.label := by
    rw [Owner.past]
    split
    · cases w <;> rfl
    · rfl
  have happend := Glyph.cut_append '=' segment g
  rw [w.drops_eq] at hfold
  rw [hfold]
  rcases h.owner_cases with ⟨f, type, rfl, hcut⟩ | ⟨f, x, type, e, name, rfl, hcut⟩
  · have htype : c.nodeType = .ofGlyphs (Glyph.settled o type) := by rw [h.nodeType, hcut]
    have hskips : (Owner.node f).skipsBlanks = !type.any (Glyph.isInked o) := by
      rw [h.skips, Glyph.current, hcut]
    have hfield : (if g.isLoose o && (Owner.node f).skipsBlanks then c else c.receive .node g)
        = { c with nodeType := .ofGlyphs (Glyph.settled o (type ++ [g])) } := by
      rw [Field.ofGlyphs_settled_append, hskips, ← htype, c.receive_node]
      split <;> rfl
    rw [hcut] at happend
    simp only [heq, Bool.false_eq_true, if_false] at happend
    rw [Owner.label, hfield]
    refine ⟨rfl, h.options, h.address, by rw [happend]; rfl, ?_, hspells.owner, ?_, ?_, hnoSlash⟩
    · rw [happend]
      exact h.nodeName.trans (by rw [hcut])
    · rw [happend]
      exact hlabel
    · simp [hpast, hskips, Glyph.current, happend]
  · have hname : c.nodeName = some (.ofGlyphs (Glyph.settled o name)) := by
      rw [h.nodeName, hcut]
      rfl
    have hskips : (Owner.nodeName f x).skipsBlanks = !name.any (Glyph.isInked o) := by
      rw [h.skips, Glyph.current, hcut]
    have hfield : (if g.isLoose o && (Owner.nodeName f x).skipsBlanks then c
        else c.receive .nodeName g)
          = { c with nodeName := some (.ofGlyphs (Glyph.settled o (name ++ [g]))) } := by
      rw [Field.ofGlyphs_settled_append, hskips, c.receive_nodeName]
      split
      · rw [← hname]
      · rw [hname, Option.map_some]
    rw [hcut] at happend
    rw [Owner.label, hfield]
    refine ⟨rfl, h.options, h.address, ?_, by rw [happend]; rfl, hspells.owner, ?_, ?_, hnoSlash⟩
    · rw [happend]
      exact h.nodeType.trans (by rw [hcut])
    · rw [happend]
      exact hlabel
    · simp [hpast, hskips, Glyph.current, happend]

/-- The first separating `=` of a segment begins its name. -/
theorem separate {f : Opening} (h : Addressing o done segment (.node f) p c)
    (hrole : g.role = (p.cover.read o .address g.ch).1) (hg : g.separates '=' = true) :
    ∃ es q x, p.next o g.offset g.ch = (es, .ok q) ∧ q.cover = .bare
      ∧ Addressing o done (segment ++ [g]) (.nodeName f x) q (es.foldl Collector.follow c) := by
  obtain ⟨hplain, heq⟩ := Glyph.separates_iff.mp hg
  obtain rfl := Place.eq_text_of_plain h.owner (hrole.symm.trans hplain)
  have hmem : g.ch ∈ (Owner.node f).marks := by
    rw [heq]
    exact List.mem_of_elem_eq_true rfl
  have hcut : Glyph.cut '=' segment = ((Glyph.cut '=' segment).1, none) := by
    rcases h.owner_cases with ⟨_, type, -, hcut⟩ | ⟨_, _, _, _, _, hw, -⟩
    · rw [hcut]
    · cases hw
  have happend := Glyph.cut_append '=' segment g
  rw [hcut] at happend
  simp only [hg, if_true] at happend
  let x : Opening := { offset := g.offset, opener := g.ch }
  have hlabels : (Place.text (.nodeName f x) .none).labels = .nodeName :: c.stack := by
    rw [Collector.stack_of_placed h.placed]
    rfl
  refine ⟨[.entered .nodeName g.offset], .text (.nodeName f x) .none, x, ?_, rfl, ?_⟩
  · simp only [Place.next, Place.onText_of_mark hmem, Place.onMark, if_pos heq, x]
  rw [List.foldl_cons, List.foldl_nil, Collector.follow_entered_nodeName hlabels]
  have hslash : g.separates '/' = false := by simp [Glyph.separates, heq]
  refine ⟨rfl, h.options, h.address, ?_, by rw [happend]; rfl, rfl, by rw [happend]; rfl, ?_,
    Glyph.separates_append h.noSlash hslash⟩
  · rw [happend]
    exact h.nodeType
  · simp [Glyph.current, happend, Owner.skipsBlanks, x]

/-- The states of a segment are left, and its step is done. -/
theorem leave (h : Addressing o done segment w (.text w .none) c) (n : Nat) (x : Option Char) :
    (w.leavings n x).foldl Collector.follow c = c.finishSegment.placed .start := by
  have hstack := Collector.stack_of_placed h.placed
  rcases h.owner_cases with ⟨f, type, rfl, -⟩ | ⟨f, y, type, e, name, rfl, -⟩
  · exact Collector.follow_leaving_node (by rw [hstack]; rfl)
  · rw [Owner.leavings, List.foldl_cons, List.foldl_cons, List.foldl_nil,
      Collector.follow_leaving_nodeName (q := .text (.node f) .none) (by rw [hstack]; rfl)]
    exact Collector.follow_leaving_node rfl

theorem address_finishSegment (h : Addressing o done segment w p c) :
    c.finishSegment.request.address = done ++ (stepIn (nodeText o) segment).toList := by
  have htext : ∀ gs, c.textOf (.ofGlyphs gs) = cook o gs := fun gs => by
    rw [← h.options]
    exact Field.finish_ofGlyphs c.options gs
  rw [Collector.finishSegment_eq, h.nodeType, h.nodeName, stepIn]
  simp only [h.address, Field.kept_ofGlyphs, Glyph.any_literal_settled, htext, Option.map_map,
    Function.comp_def, nodeText]

/-- What comes after a segment, at the character that ends it. -/
def afterSegment (n : Nat) (ch : Char) : Place.Move :=
  let f : Opening := { offset := n, opener := ch }
  if ch = '/' then ([.entered .node n], .ok (.text (.node f) .none))
  else if ch = ':' then ([.entered .operationName n], .ok (.operation f))
  else if ch = '(' then ([.entered .propertyList n], .ok (.list f))
  else ([.entered .outputRedirect n], .ok (.redirect f))

theorem onText_end (h : Addressing o done segment w p c) {n : Nat} {ch : Char}
    (hch : ch ∈ ['/', ':', '(', '>']) :
    Place.onText o n ch w = Place.after (w.leavings n (some ch)) (afterSegment n ch) := by
  have hend : Place.endSegment n ch
      = Place.after [.leaving .node n (some ch)] (afterSegment n ch) := by
    rw [Place.endSegment, afterSegment]
    repeat' split
    all_goals rfl
  have hmem : ch ∈ w.marks := h.mem_marks (by
    simp only [List.mem_cons, List.not_mem_nil, or_false] at hch ⊢
    tauto)
  have hne : ch ≠ '=' ∧ ch ≠ ')' := by
    constructor <;> rintro rfl <;> simp at hch
  rw [Place.onText_of_mark hmem]
  rcases h.owner_cases with ⟨f, type, rfl, -⟩ | ⟨f, y, type, e, name, rfl, -⟩
  · rw [Place.onMark, if_neg hne.1, if_neg hne.2, hend]
    rfl
  · rw [Place.onMark, if_neg hne.1, if_neg hne.2, hend]
    rfl

end Addressing

theorem Collector.address_follow {c : Collector} {e : Event} (h : e.state ≠ .node) :
    (c.follow e).request.address = c.request.address := by
  cases e with
  | entered l n => cases l <;> rfl
  | character l ch n =>
    change (c.take l ch).request.address = _
    rw [take_request]
    split <;> rfl
  | leaving l n x =>
    rw [follow_leaving]
    cases l
    case node => exact absurd rfl h
    case operationName =>
      rw [leave_operationName]
      split <;> rfl
    all_goals rfl

/-- The outermost states after the address. -/
def Place.afterAddress : List Label :=
  [.operationName, .propertyList, .requestEnd, .outputRedirect]

/-- What comes after the address leaves it alone. -/
theorem Place.address_foldl_read {o : Options} {p : Place}
    (hp : ∃ part ∈ afterAddress, p.outer = some part) (n : Nat) (cs : List Char) (c : Collector) :
    ((p.read o n cs).1.foldl Collector.follow c).request.address = c.request.address :=
  Collector.foldl_follow_eq (fun c => c.request.address) (fun _ _ => Collector.address_follow)
    (Place.state_ne_of_mem_read (l := .node) (by decide) (by decide) cs hp) c

namespace Addressing

variable {o : Options} {done : List Step} {segment : List Glyph} {w : Owner} {p : Place}
  {c : Collector} {g : Glyph}

/-- A slash ends a segment and begins the next one. -/
theorem slash (h : Addressing o done segment w p c)
    (hrole : g.role = (p.cover.read o w.setting g.ch).1) (hg : g.separates '/' = true) :
    ∃ es q f, p.next o g.offset g.ch = (es, .ok q) ∧ q.cover = .bare
      ∧ Addressing o (done ++ (stepIn (nodeText o) segment).toList) [] (.node f) q
        (es.foldl Collector.follow c) := by
  obtain ⟨hplain, hch⟩ := Glyph.separates_iff.mp hg
  obtain rfl := Place.eq_text_of_plain h.owner (hrole.symm.trans hplain)
  let f : Opening := { offset := g.offset, opener := g.ch }
  refine ⟨w.leavings g.offset (some g.ch) ++ [Event.entered .node g.offset],
    .text (.node f) .none, f, ?_, rfl, ?_⟩
  · rw [Place.next, h.onText_end (by simp [hch]), afterSegment, if_pos hch]
    rfl
  · rw [List.foldl_append, h.leave]
    exact ⟨rfl, h.options, h.address_finishSegment, rfl, rfl, rfl, rfl, rfl, by simp⟩

theorem afterSegment_of_end {n : Nat} {ch : Char} (hch : ch = ':' ∨ ch = '(' ∨ ch = '>') :
    ∃ l q, afterSegment n ch = ([.entered l n], .ok q) ∧ l ≠ .node
      ∧ ∃ part ∈ Place.afterAddress, q.outer = some part := by
  rcases hch with rfl | rfl | rfl
  · exact ⟨.operationName, _, rfl, by decide, .operationName, by decide, rfl⟩
  · exact ⟨.propertyList, _, rfl, by decide, .propertyList, by decide, rfl⟩
  · exact ⟨.outputRedirect, _, rfl, by decide, .outputRedirect, by decide, rfl⟩

/-- A character that ends the address ends its last segment. -/
theorem ends (h : Addressing o done segment w p c)
    (hrole : g.role = (p.cover.read o w.setting g.ch).1) (hg : g.endsAddress = true) :
    ∃ es q, p.next o g.offset g.ch = (es, .ok q)
      ∧ (∃ part ∈ Place.afterAddress, q.outer = some part)
      ∧ (es.foldl Collector.follow c).request.address
        = done ++ (stepIn (nodeText o) segment).toList := by
  obtain ⟨hplain, hch⟩ : g.role = .plain ∧ (g.ch = ':' ∨ g.ch = '(' ∨ g.ch = '>') := by
    simp only [Glyph.endsAddress, Bool.or_eq_true, Glyph.separates_iff] at hg
    tauto
  obtain rfl := Place.eq_text_of_plain h.owner (hrole.symm.trans hplain)
  have hmem : g.ch ∈ ['/', ':', '(', '>'] := by
    simp only [List.mem_cons, List.not_mem_nil, or_false]
    tauto
  obtain ⟨l, q, hafter, hl, houter⟩ := afterSegment_of_end (n := g.offset) hch
  refine ⟨w.leavings g.offset (some g.ch) ++ [Event.entered l g.offset], q, ?_, houter, ?_⟩
  · rw [Place.next, h.onText_end hmem, hafter]
    rfl
  · rw [List.foldl_append, h.leave, List.foldl_cons, List.foldl_nil,
      Collector.address_follow (e := .entered l g.offset) hl]
    exact h.address_finishSegment

/-- The end of a line that is accepted ends the last segment. -/
theorem finish (h : Addressing o done segment w p c) {n : Nat} (hok : (p.finish o n).2 = none) :
    ((p.finish o n).1.foldl Collector.follow c).request.address
      = done ++ (stepIn (nodeText o) segment).toList := by
  have howner := h.owner
  have hfinish : p = .text w .none ∧ p.finish o n = (w.leavings n none, none) := by
    rcases h.owner_cases with ⟨f, type, rfl, -⟩ | ⟨f, x, type, e, name, rfl, -⟩
    all_goals
      cases p with
      | text w s =>
        obtain rfl := Option.some.inj howner
        cases s <;> first | exact ⟨rfl, rfl⟩ | cases hok
      | _ => cases howner
  obtain ⟨rfl, hfinish⟩ := hfinish
  rw [hfinish, h.leave]
  exact h.address_finishSegment

/-- The marks that a line may go on with. -/
theorem separator_cases (h : Addressing o done segment w p c)
    (hrole : g.role = (p.cover.read o w.setting g.ch).1) (hplain : g.role = .plain)
    (hmark : g.ch ∈ w.marks) (hok : ∀ es e, p.next o g.offset g.ch ≠ (es, .error e)) :
    g.separates '/' = true ∨ g.endsAddress = true
      ∨ g.separates '=' = true ∧ ∃ f, w = .node f := by
  obtain rfl := Place.eq_text_of_plain h.owner (hrole.symm.trans hplain)
  have hsep : ∀ {ch}, g.ch = ch → g.separates ch = true := fun hch =>
    Glyph.separates_iff.mpr ⟨hplain, hch⟩
  have hends : g.ch = ':' ∨ g.ch = '(' ∨ g.ch = '>' → g.endsAddress = true := by
    rintro (hch | hch | hch) <;> simp [Glyph.endsAddress, hsep hch]
  have hnext : ∀ l, Place.onMark g.offset g.ch w ≠ Place.unexpected l g.offset g.ch := by
    intro l hx
    exact hok [] _ (by rw [Place.next, Place.onText_of_mark hmark, hx, Place.unexpected])
  rcases h.owner_cases with ⟨f, type, rfl, -⟩ | ⟨f, x, type, e, name, rfl, -⟩
  · simp only [Owner.marks, List.mem_cons, List.not_mem_nil, or_false] at hmark
    rcases hmark with hch | hch | hch | hch | hch | hch
    · exact .inr (.inr ⟨hsep hch, f, rfl⟩)
    · exact .inl (hsep hch)
    · exact .inr (.inl (hends (.inl hch)))
    · exact .inr (.inl (hends (.inr (.inl hch))))
    · exact .inr (.inl (hends (.inr (.inr hch))))
    · exact absurd (by simp [Place.onMark, hch]) (hnext .node)
  · simp only [Owner.marks, List.mem_cons, List.not_mem_nil, or_false] at hmark
    rcases hmark with hch | hch | hch | hch | hch | hch
    · exact absurd (by simp [Place.onMark, hch]) (hnext .nodeName)
    · exact .inl (hsep hch)
    · exact .inr (.inl (hends (.inl hch)))
    · exact .inr (.inl (hends (.inr (.inl hch))))
    · exact .inr (.inl (hends (.inr (.inr hch))))
    · exact absurd (by simp [Place.onMark, hch]) (hnext .nodeName)

/-- From a place inside of a segment the address is read to its end. -/
theorem address_foldl_read (h : Addressing o done segment w p c) {n : Nat} (cs : List Char)
    (hok : (p.read o n cs).2 = none) :
    ((p.read o n cs).1.foldl Collector.follow c).request.address
      = done ++ Glyph.pieces '/' (stepIn (nodeText o)) (segment
        ++ (glyphs o n .address p.cover cs).takeWhile fun g => !g.endsAddress) := by
  induction cs generalizing n done segment w p c with
  | nil =>
    have hread : p.read o n [] = p.finish o n := by simp [Place.read, Place.feed, Place.delay]
    rw [hread] at hok ⊢
    rw [h.finish hok, glyphs, List.takeWhile_nil, List.append_nil, Glyph.pieces_of_piece h.noSlash]
  | cons ch cs ih =>
    let g : Glyph := { ch, role := (p.cover.read o .address ch).1, offset := n }
    have hglyphs : glyphs o n .address p.cover (ch :: cs) = g :: glyphs o (n + ch.utf8Size) .address
        (p.cover.read o .address ch).2 cs := by
      simp only [glyphs, Setting.after, ite_self, g]
    have hrole : g.role = (p.cover.read o w.setting g.ch).1 := by rw [h.setting]
    have hrest : ∀ {es q}, p.next o n ch = (es, .ok q) →
        (q.read o (n + ch.utf8Size) cs).2 = none
          ∧ p.read o n (ch :: cs) = Place.delay es (q.read o (n + ch.utf8Size) cs) := by
      intro es q hnext
      have hread := Place.read_cons hnext cs
      rw [hread] at hok
      exact ⟨hok, hread⟩
    rw [hglyphs]
    by_cases hmark : g.role = .plain → g.ch ∉ w.marks
    · obtain ⟨es, q, hspells, hnext⟩ := h.spell hrole hmark
      obtain ⟨hok, hread⟩ := hrest hspells.next
      have hsep : ∀ ch ∈ ['=', '/', ':', '(', '>', ')'], g.separates ch = false := fun ch hch =>
        Owner.separates_of_mem_marks hmark (h.mem_marks hch)
      have hends : g.endsAddress = false := by
        simp [Glyph.endsAddress, hsep]
      have hcover : q.cover = (p.cover.read o .address ch).2 := by
        rw [hspells.cover, h.setting]
      have hfold := ih hnext hok
      rw [hcover, List.append_assoc] at hfold
      rw [hread, Place.delay, List.foldl_append, hfold, List.takeWhile_cons, hends]
      rfl
    simp only [Classical.not_imp, not_not] at hmark
    obtain ⟨hplain, hmark⟩ := hmark
    have hnoerror : ∀ es e, p.next o g.offset g.ch ≠ (es, .error e) := by
      intro es e hnext
      rw [Place.read_cons_of_error hnext] at hok
      cases hok
    have hbare : (p.cover.read o .address ch).2 = .bare := (Cover.read_of_plain hplain).2
    rcases h.separator_cases hrole hplain hmark hnoerror with hg | hg | ⟨hg, f, rfl⟩
    · obtain ⟨es, q, f, hnext, hcover, haddressing⟩ := h.slash hrole hg
      obtain ⟨hok, hread⟩ := hrest hnext
      have hfold := ih haddressing hok
      have hends : g.endsAddress = false := Glyph.not_endsAddress (by decide) hg
      rw [hcover, List.nil_append, List.append_assoc, ← Glyph.pieces_append_cons h.noSlash hg,
        ← hbare] at hfold
      rw [hread, Place.delay, List.foldl_append, hfold, List.takeWhile_cons, hends]
      rfl
    · obtain ⟨es, q, hnext, houter, haddress⟩ := h.ends hrole hg
      obtain ⟨hok, hread⟩ := hrest hnext
      rw [hread, Place.delay, List.foldl_append, Place.address_foldl_read houter, haddress,
        List.takeWhile_cons, hg]
      simp [Glyph.pieces_of_piece h.noSlash]
    · obtain ⟨es, q, x, hnext, hcover, haddressing⟩ := h.separate hrole hg
      obtain ⟨hok, hread⟩ := hrest hnext
      have hfold := ih haddressing hok
      have hends : g.endsAddress = false := Glyph.not_endsAddress (by decide) hg
      rw [hcover, List.append_assoc, ← hbare] at hfold
      rw [hread, Place.delay, List.foldl_append, hfold, List.takeWhile_cons, hends]
      rfl

end Addressing

/-- Blanks before the first segment do not matter. -/
theorem stepsOf_cons_of_blank {o : Options} {g : Glyph} (hrole : g.role = .plain)
    (hch : o.isBlank g.ch = true) (gs : List Glyph) :
    stepsOf (nodeText o) (g :: gs) = stepsOf (nodeText o) gs := by
  have hsep : ∀ {ch}, Text.isMark ch = true → g.separates ch = false :=
    Glyph.separates_of_blank hch
  have hends : g.endsAddress = false := by
    rw [Glyph.endsAddress, hsep rfl, hsep rfl, hsep rfl]
    rfl
  have htext : ∀ gs, nodeText o (g :: gs) = nodeText o gs := by
    intro gs
    simp [nodeText, Glyph.settled, Glyph.isInked, Glyph.isLoose, hrole, hch]
  rw [stepsOf, List.takeWhile_cons, hends]
  refine Glyph.pieces_cons (hsep rfl) fun segment => ?_
  simp [stepIn, Glyph.cut, hsep, htext, hrole, Text.isMark]

theorem Collector.follow_root (c : Collector) (ch : Char) (n : Nat) :
    c.follow (.character .initial ch n)
      = { c.plain with request := { c.request with absolute := true } } := by
  change (c.take .initial ch).plain = _
  rw [take_eq, if_pos rfl]
  unfold seen
  split <;> rfl

theorem Addressing.start {o : Options} {c : Collector} {f : Opening}
    (hc : c.placed (.text (.node f) .none) = c) (hoptions : c.options = o)
    (haddress : c.request.address = []) (htype : c.nodeType = {}) (hname : c.nodeName = none)
    (hf : f.forwarded = 0) : Addressing o [] [] (.node f) (.text (.node f) .none) c :=
  ⟨hc, hoptions, haddress, htype, hname, rfl, rfl, by simp [Owner.skipsBlanks, hf, Glyph.current,
    Glyph.cut], by simp⟩

theorem Place.address_start (o : Options) (n : Nat) (cs : List Char)
    (hok : (Place.start.read o n cs).2 = none) :
    ((Place.start.read o n cs).1.foldl Collector.follow { options := o }).request.address
      = stepsOf (nodeText o) (glyphs o n .address .bare cs) := by
  induction cs generalizing n with
  | nil => rfl
  | cons ch cs ih =>
    by_cases hblank : o.isBlank ch = true
    · have hnext : Place.start.next o n ch = ([], .ok .start) := by
        rw [next, if_pos hblank]
      have hread := read_cons hnext cs
      rw [hread] at hok ⊢
      rw [glyphs_cons_of_blank hblank, stepsOf_cons_of_blank rfl hblank]
      exact ih _ hok
    let f : Opening := { offset := n, opener := ch }
    by_cases hslash : ch = '/'
    · have hnext : Place.start.next o n ch = ([.character .initial ch n, .entered .node n],
          .ok (.text (.node f) .none)) := by
        simp only [next, if_neg hblank, if_pos hslash, f]
      have hread := read_cons hnext cs
      rw [hread] at hok ⊢
      have haddressing : Addressing o [] [] (.node f) (.text (.node f) .none)
          ([.character .initial ch n, Event.entered .node n].foldl Collector.follow
            { options := o }) := by
        rw [List.foldl_cons, Collector.follow_root]
        exact .start rfl rfl rfl rfl rfl rfl
      rw [delay, List.foldl_append, haddressing.address_foldl_read cs hok, hslash]
      rfl
    by_cases hend : ch = ':' ∨ ch = '(' ∨ ch = '>'
    · obtain ⟨l, q, hafter, hl, houter⟩ := Addressing.afterSegment_of_end (n := n) hend
      have hnext : Place.start.next o n ch = ([.entered l n], .ok q) := by
        rw [← hafter, Addressing.afterSegment]
        rcases hend with rfl | rfl | rfl <;> simp [next, hblank]
      have hstop : stepsOf (nodeText o) (glyphs o n .address .bare (ch :: cs)) = [] := by
        rcases hend with rfl | rfl | rfl <;> rfl
      rw [read_cons hnext, delay, List.foldl_append, address_foldl_read houter, hstop]
      exact Collector.address_follow (e := .entered l n) hl
    · have hopening : Place.start.next o n ch = after [.entered .node n]
          ((Place.text (.node f) .none).next o n ch) := by
        simp only [not_or] at hend
        simp only [next, if_neg hblank, if_neg hslash, if_neg hend.1, if_neg hend.2.1,
          if_neg hend.2.2, f]
      have hread := read_opening hopening cs
      rw [hread] at hok ⊢
      have haddressing : Addressing o [] [] (.node f) (.text (.node f) .none)
          (Collector.follow { options := o } (.entered .node n)) :=
        .start rfl rfl rfl rfl rfl rfl
      exact haddressing.address_foldl_read (ch :: cs) hok

/-- An accepted line has the address that is written at its beginning, except that a node's type or
name misses the blanks that come after a literal, as long as nothing was written bare in it. Its
text is then not the one that is written if anything comes after such a blank, and only then. -/
theorem address_of_segments {o : Options} {line : String} {r : Request}
    (h : Request.parse o line = .ok r) :
    r.address = stepsOf (nodeText o) (glyphs o 0 .address .bare line.toList)
      ∧ ∀ gs, nodeText o gs = cook o gs ↔ ¬ LosesBlank o gs := by
  obtain ⟨hok, rfl⟩ := Request.parse_eq_ok_iff_follow.mp h
  exact ⟨Place.address_start o 0 line.toList hok, nodeText_eq_cook_iff o⟩

/-- The blank after the quoted literal is lost. -/
theorem address_loses_blank :
    let line := "\"a\" b"
    let gs := glyphs {} 0 .address .bare line.toList
    Request.parse {} line = .ok { address := [.node ⟨"ab", none⟩] }
      ∧ stepsOf (nodeText {}) gs = [.node ⟨"ab", none⟩]
      ∧ stepsOf (cook {}) gs = [.node ⟨"a b", none⟩] ∧ nodeText {} gs ≠ cook {} gs := by
  intro line gs
  have hparse : Request.parse {} line = .ok { address := [.node ⟨"ab", none⟩] } := by
    decide +kernel
  obtain ⟨haddress, htext⟩ := address_of_segments hparse
  refine ⟨hparse, haddress.symm, by decide +kernel, ?_⟩
  rw [Ne, htext, not_not]
  exact ⟨gs.take 3, { ch := ' ', role := .plain, offset := 3 }, gs.drop 4, by decide +kernel,
    by decide +kernel, by decide +kernel, by decide +kernel, by decide +kernel⟩

end RequestLine
