import RequestLine.Proofs.WellFormed

/-!
# Glyphs

What the texts of a line mean, said without a machine. Read from left to right, every character of
a text has a role (`glyphs`): it is plain, it is a mark that belongs to a literal and not to its
text, or it is literal. Only plain characters separate. The text of a sequence of glyphs is `cook`:
its marks go, and so do the plain blanks at both ends.

A field knows no more of its characters than which byte range is to be kept. That is enough to
give the text of all glyphs it has received (`Field.finish_ofGlyphs`).
-/

namespace RequestLine

/-- What a character of a text is there for. -/
inductive Role where
  /-- It stands for itself, or it separates. -/
  | plain
  /-- It is the quote of a literal or the backslash of an escape. -/
  | mark
  /-- It stands for itself, since it is in a literal or behind a backslash. -/
  | literal
  deriving DecidableEq, Repr

/-- A character of a text. -/
structure Glyph where
  ch : Char
  role : Role
  /-- The byte offset of the character in the line. -/
  offset : Nat
  deriving DecidableEq, Repr

/-- The literal or the escape that the next character is in. -/
inductive Cover where
  | bare
  | escape
  | quotes
  | quotesEscape
  /-- A bracket literal, with `depth` nested ones open. -/
  | bracket (kind : Bracket) (depth : Nat)
  deriving DecidableEq, Repr

/-- What a text is part of. Brackets open a literal only in the value of a property. -/
inductive Setting where
  | address
  | propertyName
  | propertyValue
  deriving DecidableEq, Repr

/-- The setting after a plain character. -/
def Setting.after (ch : Char) : Setting → Setting
  | address => address
  | propertyName => if ch = '=' then propertyValue else propertyName
  | propertyValue => if ch = ',' then propertyName else propertyValue

/-- The bracket literal that the character opens. -/
def Setting.bracket? (ch : Char) : Setting → Option Bracket
  | propertyValue => Bracket.ofOpener? ch
  | _ => none

/-- The role of a character, and the cover of the next one. -/
def Cover.read (o : Options) (s : Setting) (ch : Char) : Cover → Role × Cover
  | bare =>
    if ch = '"' then (.mark, quotes)
    else if ch = '\\' && o.escapeRule = .backslash then (.mark, escape)
    else
      match s.bracket? ch with
      | some b => (.literal, bracket b 0)
      | none => (.plain, bare)
  | escape => (.literal, bare)
  | quotes =>
    if ch = '"' then (.mark, bare)
    else if ch = '\\' && o.escapeRule = .backslash then (.mark, quotesEscape)
    else (.literal, quotes)
  | quotesEscape => (.literal, quotes)
  | bracket b depth =>
    if ch = b.opener then (.literal, bracket b (depth + 1))
    else if ch = b.closer then
      if 0 < depth then (.literal, bracket b (depth - 1)) else (.literal, bare)
    else (.literal, bracket b depth)

/-- A plain character stands in no literal and opens none. -/
theorem Cover.read_of_plain {o : Options} {s : Setting} {ch : Char} {k : Cover}
    (h : (k.read o s ch).1 = .plain) : k = bare ∧ (k.read o s ch).2 = bare := by
  cases k with
  | bare =>
    refine ⟨rfl, ?_⟩
    simp only [read] at h ⊢
    split_ifs at h ⊢
    rcases hb : s.bracket? ch with _ | b
    · rfl
    · rw [hb] at h
      cases h
  | escape => cases h
  | quotes =>
    simp only [read] at h
    split_ifs at h
  | quotesEscape => cases h
  | bracket b depth =>
    simp only [read] at h
    split_ifs at h

/-- The characters with their roles, the first of which stands at `n`. -/
def glyphs (o : Options) : Nat → Setting → Cover → List Char → List Glyph
  | _, _, _, [] => []
  | n, s, k, ch :: cs =>
    let (role, k') := k.read o s ch
    { ch, role, offset := n }
      :: glyphs o (n + ch.utf8Size) (if role = .plain then s.after ch else s) k' cs

theorem Options.ne_of_isBlank {o : Options} {ch x : Char} (h : o.isBlank ch = true)
    (hx : Text.isMark x = true) : ch ≠ x := by
  rintro rfl
  rw [o.isBlank_of_isMark hx] at h
  cases h

/-- A blank between literals is plain and changes nothing. -/
theorem glyphs_cons_of_blank {o : Options} {ch : Char} (h : o.isBlank ch = true) (n : Nat)
    (s : Setting) (cs : List Char) :
    glyphs o n s .bare (ch :: cs)
      = { ch, role := .plain, offset := n } :: glyphs o (n + ch.utf8Size) s .bare cs := by
  have hbracket : s.bracket? ch = none := by
    cases s with
    | propertyValue =>
      simp [Setting.bracket?, Bracket.ofOpener?, Options.ne_of_isBlank h (x := '[') rfl,
        Options.ne_of_isBlank h (x := '{') rfl, Options.ne_of_isBlank h (x := '(') rfl]
    | _ => rfl
  have hread : Cover.bare.read o s ch = (.plain, .bare) := by
    simp [Cover.read, hbracket, Options.ne_of_isBlank h (x := '"') rfl,
      Options.ne_of_isBlank h (x := '\\') rfl]
  have hafter : s.after ch = s := by
    cases s with
    | propertyName => exact if_neg (Options.ne_of_isBlank h rfl)
    | propertyValue => exact if_neg (Options.ne_of_isBlank h rfl)
    | address => rfl
  simp only [glyphs, hread, if_true, hafter]

namespace Glyph

/-- The glyph ends a piece of text at the character `ch`. -/
def separates (ch : Char) (g : Glyph) : Bool :=
  g.role = .plain && g.ch = ch

theorem separates_iff {ch : Char} {g : Glyph} :
    g.separates ch = true ↔ g.role = .plain ∧ g.ch = ch := by
  rw [separates, Bool.and_eq_true, decide_eq_true_eq, decide_eq_true_eq]

theorem separates_append {ch : Char} {g : Glyph} {gs : List Glyph}
    (h : ∀ g ∈ gs, g.separates ch = false) (hg : g.separates ch = false) :
    ∀ x ∈ gs ++ [g], x.separates ch = false := by
  intro x hx
  rcases List.mem_append.mp hx with hx | hx
  · exact h x hx
  · rwa [List.mem_singleton.mp hx]

/-- What the glyph gives to its text: the character, and whether it is to be kept at the ends. -/
def given? (g : Glyph) : Option (Char × Bool) :=
  match g.role with
  | .plain => some (g.ch, false)
  | .mark => none
  | .literal => some (g.ch, true)

/-- The glyphs before the first that separates at `ch`, and that glyph with those after it. -/
def cut (ch : Char) : List Glyph → List Glyph × Option (Glyph × List Glyph)
  | [] => ([], none)
  | g :: gs => if g.separates ch then ([], some (g, gs)) else (g :: (cut ch gs).1, (cut ch gs).2)

theorem cut_append (ch : Char) (gs : List Glyph) (g : Glyph) :
    cut ch (gs ++ [g]) =
      match cut ch gs with
      | (before, some (e, rest)) => (before, some (e, rest ++ [g]))
      | (before, none) =>
        if g.separates ch then (before, some (g, [])) else (before ++ [g], none) := by
  induction gs with
  | nil =>
    simp only [List.nil_append, cut]
  | cons x gs ih =>
    rw [List.cons_append, cut, cut]
    split
    · rfl
    · rw [ih]
      rcases cut ch gs with ⟨before, _ | ⟨e, rest⟩⟩
      · simp only
        split <;> rfl
      · rfl

/-- What the pieces of text between the separators `ch` stand for. -/
def pieces {α : Type} (ch : Char) (meaning : List Glyph → Option α) (gs : List Glyph) : List α :=
  (gs.splitOnP (separates ch)).filterMap meaning

section Pieces

variable {α : Type} {ch : Char} {meaning : List Glyph → Option α} {gs piece : List Glyph}
  {g : Glyph}

theorem pieces_of_piece (hpiece : ∀ g ∈ piece, g.separates ch = false) :
    pieces ch meaning piece = (meaning piece).toList := by
  rw [pieces, List.splitOnP_eq_singleton hpiece, List.filterMap_cons, List.filterMap_nil]
  rcases meaning piece with _ | a <;> rfl

theorem pieces_append_cons (hpiece : ∀ g ∈ piece, g.separates ch = false)
    (hg : g.separates ch = true) :
    pieces ch meaning (piece ++ g :: gs) = (meaning piece).toList ++ pieces ch meaning gs := by
  rw [← pieces_of_piece hpiece, pieces, List.splitOnP_append_cons piece gs hg,
    List.filterMap_append]
  rfl

/-- A glyph at the beginning that the first piece does without. -/
theorem pieces_cons (hg : g.separates ch = false)
    (hmeaning : ∀ piece, meaning (g :: piece) = meaning piece) :
    pieces ch meaning (g :: gs) = pieces ch meaning gs := by
  rw [pieces, List.splitOnP_cons_eq_if_modifyHead, hg, pieces]
  rcases gs.splitOnP (separates ch) with _ | ⟨piece, rest⟩
  · rfl
  · simp only [Bool.false_eq_true, if_false, List.modifyHead_cons, List.filterMap_cons, hmeaning]

end Pieces

end Glyph

namespace Text

/-- A blank that is not to be kept. -/
def isLoose (isBlank : Char → Bool) (p : Char × Bool) : Bool :=
  isBlank p.1 && !p.2

/-- The characters without the loose blanks at both ends. -/
def trimLoose (isBlank : Char → Bool) (ps : List (Char × Bool)) : List Char :=
  ((ps.dropWhile (isLoose isBlank)).rdropWhile (isLoose isBlank)).map Prod.fst

section Trim

variable {isBlank : Char → Bool} {ps qs : List (Char × Bool)} {p : Char × Bool}

theorem rdropWhile_cons {α : Type} (p : α → Bool) (x : α) (xs : List α) :
    (x :: xs).rdropWhile p =
      if p x && (xs.rdropWhile p).isEmpty then [] else x :: xs.rdropWhile p := by
  rw [List.rdropWhile, List.reverse_cons, List.dropWhile_append, List.rdropWhile]
  rcases hxs : xs.reverse.dropWhile p with _ | ⟨y, ys⟩
  · rcases hx : p x with _ | _ <;> simp [hx]
  · simp

theorem map_dropWhile_isLoose (h : ∀ p ∈ ps, p.2 = false) :
    (ps.dropWhile (isLoose isBlank)).map Prod.fst = trimStart isBlank (ps.map Prod.fst) := by
  induction ps with
  | nil => rfl
  | cons p ps ih =>
    have hp : isLoose isBlank p = isBlank p.1 := by simp [isLoose, h p List.mem_cons_self]
    rw [trimStart, List.map_cons, List.dropWhile_cons, List.dropWhile_cons, hp]
    split
    · exact ih fun q hq => h q (List.mem_cons_of_mem p hq)
    · rfl

theorem map_rdropWhile_isLoose (h : ∀ p ∈ ps, p.2 = false) :
    (ps.rdropWhile (isLoose isBlank)).map Prod.fst = trimEnd isBlank (ps.map Prod.fst) := by
  rw [List.rdropWhile, List.map_reverse, map_dropWhile_isLoose (by simpa using h), trimStart,
    trimEnd, List.map_reverse]

/-- A character that is to be kept stops the trimming from the left. -/
theorem dropWhile_isLoose_append (hp : p.2 = true) :
    (ps ++ p :: qs).dropWhile (isLoose isBlank)
      = ps.dropWhile (isLoose isBlank) ++ p :: qs := by
  have hstop : (p :: qs).dropWhile (isLoose isBlank) = p :: qs := by
    rw [List.dropWhile_cons_of_neg (by simp [isLoose, hp])]
  rw [List.dropWhile_append]
  split
  · rename_i hnil
    rw [List.isEmpty_iff.mp hnil, hstop, List.nil_append]
  · rfl

theorem rdropWhile_isLoose_append (hp : p.2 = true) :
    (ps ++ p :: qs).rdropWhile (isLoose isBlank)
      = ps ++ p :: qs.rdropWhile (isLoose isBlank) := by
  have hrev : (ps ++ p :: qs).reverse = qs.reverse ++ p :: ps.reverse := by simp
  rw [List.rdropWhile, hrev, dropWhile_isLoose_append hp, List.rdropWhile]
  simp

theorem trimLoose_of_unkept (h : ∀ p ∈ ps, p.2 = false) :
    trimLoose isBlank ps = trim isBlank (ps.map Prod.fst) := by
  have hdrop : ∀ p ∈ ps.dropWhile (isLoose isBlank), p.2 = false := fun p hp =>
    h p ((List.dropWhile_sublist _).mem hp)
  rw [trimLoose, map_rdropWhile_isLoose hdrop, map_dropWhile_isLoose h, trim]

end Trim

end Text

/-- The text that is written with the glyphs. -/
def cook (o : Options) (gs : List Glyph) : String :=
  String.ofList (Text.trimLoose o.isBlank (gs.filterMap Glyph.given?))

theorem Glyph.separates_of_blank {o : Options} {g : Glyph} {ch : Char}
    (h : o.isBlank g.ch = true) (hch : Text.isMark ch = true) : g.separates ch = false := by
  simp [Glyph.separates, Options.ne_of_isBlank h hch]

theorem cook_cons_of_blank {o : Options} {g : Glyph} (hrole : g.role = .plain)
    (hch : o.isBlank g.ch = true) (gs : List Glyph) : cook o (g :: gs) = cook o gs := by
  have hgiven : g.given? = some (g.ch, false) := by simp [Glyph.given?, hrole]
  rw [cook, List.filterMap_cons_some hgiven, Text.trimLoose,
    List.dropWhile_cons_of_pos (by simp [Text.isLoose, hch])]
  rfl

namespace Field

/-- The field that has received the characters. -/
def pushAll (ps : List (Char × Bool)) : Field :=
  ps.foldl (fun f p => f.push p.1 p.2) {}

section Push

variable {isBlank : Char → Bool} {ps : List (Char × Bool)} {f : Field}

theorem pushAll_append (ps : List (Char × Bool)) (p : Char × Bool) :
    pushAll (ps ++ [p]) = (pushAll ps).push p.1 p.2 := by
  simp [pushAll]

theorem text_pushAll (ps : List (Char × Bool)) : (pushAll ps).text.toList = ps.map Prod.fst := by
  induction ps using List.reverseRecOn with
  | nil => rfl
  | append_singleton ps p ih => rw [pushAll_append, push, String.toList_push, ih, List.map_append,
      List.map_singleton]

/-- The range of the field goes from the first to the last character of `ps` that is to be kept. -/
inductive Ranges (ps : List (Char × Bool)) (f : Field) : Prop
  | nothing (hkept : f.kept = none) (hps : ∀ p ∈ ps, p.2 = false)
  | range (before range after : List (Char × Bool)) {first last : Char × Bool}
    (hkept : f.kept = some (Text.byteSize (before.map Prod.fst),
      Text.byteSize ((before ++ range).map Prod.fst)))
    (hps : ps = before ++ range ++ after) (hbefore : ∀ p ∈ before, p.2 = false)
    (hfirst : range.head? = some first ∧ first.2 = true)
    (hlast : range.getLast? = some last ∧ last.2 = true) (hafter : ∀ p ∈ after, p.2 = false)

theorem Ranges.push (h : Ranges ps f) (htext : f.text.toList = ps.map Prod.fst)
    (p : Char × Bool) : Ranges (ps ++ [p]) (f.push p.1 p.2) := by
  have hsize : f.text.utf8ByteSize = Text.byteSize (ps.map Prod.fst) := by
    rw [← htext, Text.byteSize_toList]
  obtain ⟨ch, keep⟩ := p
  cases h with
  | nothing hkept hps =>
    cases keep with
    | false =>
      refine .nothing hkept fun p hp => ?_
      rcases List.mem_append.mp hp with hp | hp
      · exact hps p hp
      · rw [List.mem_singleton.mp hp]
    | true =>
      refine .range ps [(ch, true)] [] ?_ (by simp) hps
        ⟨rfl, rfl⟩ ⟨rfl, rfl⟩ (by simp)
      simp [Field.push, hkept, hsize]
  | range before range after hkept hps hbefore hfirst hlast hafter =>
    cases keep with
    | false =>
      refine .range before range (after ++ [(ch, false)]) hkept (by simp [hps]) hbefore hfirst hlast
        fun p hp => ?_
      rcases List.mem_append.mp hp with hp | hp
      · exact hafter p hp
      · rw [List.mem_singleton.mp hp]
    | true =>
      refine .range before (range ++ after ++ [(ch, true)]) [] ?_ (by simp [hps]) hbefore
        ⟨?_, hfirst.2⟩ ⟨List.getLast?_concat, rfl⟩ (by simp)
      · simp [Field.push, hkept, hsize, hps, Nat.add_assoc]
      · simp [hfirst.1]

theorem ranges_pushAll (ps : List (Char × Bool)) : Ranges ps (pushAll ps) := by
  induction ps using List.reverseRecOn with
  | nil => exact .nothing rfl (by simp)
  | append_singleton ps p ih =>
    rw [pushAll_append]
    exact ih.push (text_pushAll ps) p

theorem Ranges.trimmed? (h : Ranges ps f) (htext : f.text.toList = ps.map Prod.fst) :
    f.trimmed? isBlank = some (Text.trimLoose isBlank ps) := by
  cases h with
  | nothing hkept hps => rw [Field.trimmed?, hkept, htext, Text.trimLoose_of_unkept hps]
  | @range before range after first last hkept hps hbefore hfirst hlast hafter =>
    obtain ⟨tail, rfl⟩ := List.head?_eq_some_iff.mp hfirst.1
    obtain ⟨init, hinit⟩ := List.getLast?_eq_some_iff.mp hlast.1
    have hstop : Text.splitAtByte? (Text.byteSize ((before ++ first :: tail).map Prod.fst))
        f.text.toList = some ((before ++ first :: tail).map Prod.fst, after.map Prod.fst) := by
      have hmap : ps.map Prod.fst
          = (before ++ first :: tail).map Prod.fst ++ after.map Prod.fst := by
        rw [hps, List.map_append]
      rw [htext, hmap]
      exact Text.splitAtByte?_byteSize_append _ _
    have hstart : Text.splitAtByte? (Text.byteSize (before.map Prod.fst))
        ((before ++ first :: tail).map Prod.fst)
          = some (before.map Prod.fst, (first :: tail).map Prod.fst) := by
      rw [List.map_append]
      exact Text.splitAtByte?_byteSize_append _ _
    have hleft : ps.dropWhile (Text.isLoose isBlank)
        = before.dropWhile (Text.isLoose isBlank) ++ init ++ last :: after := by
      rw [hps, List.append_assoc, List.cons_append, Text.dropWhile_isLoose_append hfirst.2,
        ← List.cons_append, hinit]
      simp
    rw [Field.trimmed?, hkept, Text.trimLoose, hleft, Text.rdropWhile_isLoose_append hlast.2]
    simp only [hstop, hstart, Option.bind_eq_bind, Option.bind_some]
    rw [← Text.map_dropWhile_isLoose hbefore, ← Text.map_rdropWhile_isLoose hafter, hinit]
    simp

theorem finish_pushAll (isBlank : Char → Bool) (ps : List (Char × Bool)) :
    (pushAll ps).finish isBlank = String.ofList (Text.trimLoose isBlank ps) := by
  rw [finish, (ranges_pushAll ps).trimmed? (text_pushAll ps), Option.getD_some]

theorem kept_pushAll (ps : List (Char × Bool)) :
    (pushAll ps).kept.isSome = ps.any Prod.snd := by
  rcases ranges_pushAll ps with ⟨hkept, hps⟩ | ⟨_, _, _, hkept, hps, -, hfirst, -, -⟩
  · rw [hkept, Option.isSome_none, eq_comm, List.any_eq_false]
    simpa using hps
  · rw [hkept, Option.isSome_some, eq_comm, List.any_eq_true]
    refine ⟨_, ?_, hfirst.2⟩
    rw [hps]
    simp [List.mem_of_mem_head? hfirst.1]

end Push

/-- The field with what the glyph gives to it. -/
def add (f : Field) (g : Glyph) : Field :=
  match g.given? with
  | none => f
  | some (ch, keep) => f.push ch keep

theorem map_add (f : Option Field) (g : Glyph) :
    f.map (·.add g) = match g.given? with
      | none => f
      | some (ch, keep) => f.map (·.push ch keep) := by
  have hadd : (·.add g) = fun f : Field => match g.given? with
      | none => f
      | some (ch, keep) => f.push ch keep := rfl
  rw [hadd]
  rcases g.given? with _ | ⟨ch, keep⟩
  · simp
  · rfl

/-- The field that has received the glyphs. -/
def ofGlyphs (gs : List Glyph) : Field :=
  pushAll (gs.filterMap Glyph.given?)

theorem ofGlyphs_append (gs : List Glyph) (g : Glyph) :
    ofGlyphs (gs ++ [g]) = (ofGlyphs gs).add g := by
  rw [ofGlyphs, List.filterMap_append, add]
  rcases hg : g.given? with _ | ⟨ch, keep⟩
  · simp [hg, ofGlyphs]
  · simp [hg, ofGlyphs, pushAll_append]

/-- A field gives the text that is written with the glyphs it has received. -/
theorem finish_ofGlyphs (o : Options) (gs : List Glyph) :
    (ofGlyphs gs).finish o.isBlank = cook o gs :=
  finish_pushAll o.isBlank _

end Field

end RequestLine
