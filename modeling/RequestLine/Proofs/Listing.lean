import RequestLine.Proofs.Parts
import RequestLine.Proofs.Spelling

/-!
# Property lists

A property list is what stands between its parentheses, cut into items at the separating commas and
each item cut at its first separating `=` (`propertiesOf`). Inside the list the collector has read a
part of an item, and the glyphs of that part determine its pending property (`Listing`). Every glyph
keeps this up, until the first parenthesis that closes ends the list (`Place.closes_list`).
-/

namespace RequestLine

/-- The property that an item of a list stands for; none if nothing is written. -/
def propertyOf (o : Options) (item : List Glyph) : Option Property :=
  match Glyph.cut '=' item with
  | (name, none) => if cook o name = "" then none else some { name := cook o name }
  | (name, some (e, value)) =>
    some { name := cook o name, value := some (cook o value), valueSeparator := some e.offset }

/-- The properties that are written between the parentheses of a list. -/
def propertiesOf (o : Options) (body : List Glyph) : List Property :=
  Glyph.pieces ',' (propertyOf o) body

/-- Blanks before the first item do not matter. -/
theorem propertiesOf_cons_of_blank {o : Options} {body : List Glyph} {g : Glyph}
    (hrole : g.role = .plain) (hch : o.isBlank g.ch = true) :
    propertiesOf o (g :: body) = propertiesOf o body := by
  refine Glyph.pieces_cons (Glyph.separates_of_blank hch rfl) fun item => ?_
  have hsep : g.separates '=' = false := Glyph.separates_of_blank hch rfl
  simp only [propertyOf, Glyph.cut, hsep, Bool.false_eq_true, if_false]
  rcases Glyph.cut '=' item with ⟨name, _ | ⟨e, value⟩⟩
  · simp only [cook_cons_of_blank hrole hch]
  · simp only [cook_cons_of_blank hrole hch]

/-- The property of which the glyphs have been read. -/
def PendingProperty.ofGlyphs (item : List Glyph) : PendingProperty :=
  match Glyph.cut '=' item with
  | (name, none) => { name := .ofGlyphs name }
  | (name, some (e, value)) =>
    { name := .ofGlyphs name, value := some (.ofGlyphs value), valueSeparator := some e.offset }

theorem Collector.pendingProperty_ofGlyphs {c : Collector} {item : List Glyph}
    (h : c.property = .ofGlyphs item) : c.pendingProperty = propertyOf c.options item := by
  have htext : ∀ gs, c.textOf (.ofGlyphs gs) = cook c.options gs := fun gs =>
    Field.finish_ofGlyphs c.options gs
  rw [pendingProperty, writtenProperty, h, PendingProperty.ofGlyphs, propertyOf]
  rcases Glyph.cut '=' item with ⟨name, _ | ⟨e, value⟩⟩
  · simp [htext]
  · simp [htext]

theorem Collector.receive_property (c : Collector) (g : Glyph) :
    c.receive .property g
      = { c with property := { c.property with name := c.property.name.add g } } := by
  rw [receive, Field.add]
  rcases g.given? with _ | ⟨ch, keep⟩ <;> rfl

theorem Collector.receive_propertyValue (c : Collector) (g : Glyph) :
    c.receive .propertyValue g
      = { c with property := { c.property with value := c.property.value.map (·.add g) } } := by
  rw [receive, Field.map_add]
  rcases g.given? with _ | ⟨ch, keep⟩ <;> rfl

section Following

variable {c : Collector} {q : Place} {n : Nat} {x : Option Char}

theorem Collector.follow_entered_propertyValue (hq : q.labels = .propertyValue :: c.stack) :
    c.follow (.entered .propertyValue n) = Collector.placed q
      { c with property := { c.property with value := some {}, valueSeparator := some n } } := by
  rw [placed, hq]
  rfl

theorem Collector.follow_leaving_propertyValue (hq : q.labels = c.stack.tail) :
    c.follow (.leaving .propertyValue n x) = c.placed q := by
  rw [placed, hq]
  rfl

theorem Collector.follow_leaving_property (hq : q.labels = c.stack.tail) :
    c.follow (.leaving .property n x) = c.finishProperty.placed q := by
  rw [follow_leaving, placed, hq]
  rfl

end Following

/-- The setting of a character that comes after the glyphs of an item. -/
def itemSetting (item : List Glyph) : Setting :=
  match (Glyph.cut '=' item).2 with
  | none => .propertyName
  | some _ => .propertyValue

section Pending

variable {item : List Glyph} {g : Glyph}

theorem PendingProperty.ofGlyphs_append_name (hitem : itemSetting item = .propertyName)
    (hg : g.separates '=' = false) :
    itemSetting (item ++ [g]) = .propertyName ∧ ofGlyphs (item ++ [g])
      = { ofGlyphs item with name := (ofGlyphs item).name.add g } := by
  rw [itemSetting] at hitem ⊢
  rw [ofGlyphs, ofGlyphs, Glyph.cut_append]
  rcases hcut : Glyph.cut '=' item with ⟨name, _ | ⟨e, value⟩⟩ <;> rw [hcut] at hitem
  · simp [hg, Field.ofGlyphs_append]
  · cases hitem

theorem PendingProperty.ofGlyphs_append_separator (hitem : itemSetting item = .propertyName)
    (hg : g.separates '=' = true) :
    itemSetting (item ++ [g]) = .propertyValue ∧ ofGlyphs (item ++ [g])
      = { ofGlyphs item with value := some {}, valueSeparator := some g.offset } := by
  rw [itemSetting] at hitem ⊢
  rw [ofGlyphs, ofGlyphs, Glyph.cut_append]
  rcases hcut : Glyph.cut '=' item with ⟨name, _ | ⟨e, value⟩⟩ <;> rw [hcut] at hitem
  · simp [hg, Field.ofGlyphs, Field.pushAll]
  · cases hitem

theorem PendingProperty.ofGlyphs_append_value (hitem : itemSetting item = .propertyValue) :
    itemSetting (item ++ [g]) = .propertyValue ∧ ofGlyphs (item ++ [g])
      = { ofGlyphs item with value := (ofGlyphs item).value.map (·.add g) } := by
  rw [itemSetting] at hitem ⊢
  rw [ofGlyphs, ofGlyphs, Glyph.cut_append]
  rcases hcut : Glyph.cut '=' item with ⟨name, _ | ⟨e, value⟩⟩ <;> rw [hcut] at hitem
  · cases hitem
  · simp [Field.ofGlyphs_append]

end Pending

/-- At the place `p` of a list, inside a text of `w`, the glyphs `item` of a property have been read
after the properties `done`. -/
structure Listing (o : Options) (done : List Property) (item : List Glyph) (w : Owner) (p : Place)
    (c : Collector) : Prop where
  placed : c.placed p = c
  options : c.options = o
  properties : c.request.properties = some done
  property : c.property = .ofGlyphs item
  owner : p.owner? = some w
  setting : w.setting = itemSetting item
  noComma : ∀ g ∈ item, g.separates ',' = false

namespace Listing

variable {o : Options} {done : List Property} {item : List Glyph} {w : Owner} {p : Place}
  {c : Collector} {g : Glyph}

theorem owner_cases (h : Listing o done item w p c) :
    (∃ f x, w = .property f x ∧ itemSetting item = .propertyName)
      ∨ ∃ f x v, w = .propertyValue f x v ∧ itemSetting item = .propertyValue := by
  have hsetting := h.setting
  cases w with
  | property f x => exact .inl ⟨f, x, rfl, hsetting.symm⟩
  | propertyValue f x v => exact .inr ⟨f, x, v, rfl, hsetting.symm⟩
  | _ =>
    rw [itemSetting] at hsetting
    split at hsetting <;> cases hsetting

/-- A glyph that does not separate belongs to the item. -/
theorem spell (h : Listing o done item w p c)
    (hrole : g.role = (p.cover.read o w.setting g.ch).1)
    (hmark : g.role = .plain → g.ch ∉ w.marks) :
    ∃ es q, Place.Spells o w p g es q
      ∧ Listing o done (item ++ [g]) (w.past o g) q (es.foldl Collector.follow c) := by
  obtain ⟨es, q, hspells⟩ := Place.exists_spells h.owner hrole hmark
  refine ⟨es, q, hspells, ?_⟩
  have hsep : ∀ ch ∈ w.marks, g.separates ch = false := fun ch hch =>
    Owner.separates_of_mem_marks hmark hch
  have hfold := hspells.fold c h.placed
  rcases h.owner_cases with ⟨f, x, rfl, hitem⟩ | ⟨f, x, v, rfl, hitem⟩
  · have hcomma := hsep ',' (List.mem_of_elem_eq_true rfl)
    have heq := hsep '=' (List.mem_of_elem_eq_true rfl)
    obtain ⟨hsetting, happend⟩ := PendingProperty.ofGlyphs_append_name hitem heq
    have hdrops : (Owner.property f x).drops o g = false := by
      simp [Owner.drops, Owner.skipsBlanks]
    have hpast : ((Owner.property f x).past o g).setting = .propertyName := by
      rw [Owner.past]
      split <;> rfl
    rw [hdrops, if_neg Bool.false_ne_true, Owner.label, c.receive_property] at hfold
    rw [hfold]
    exact ⟨rfl, h.options, h.properties, by rw [happend, ← h.property]; rfl, hspells.owner,
      hpast.trans hsetting.symm, Glyph.separates_append h.noComma hcomma⟩
  · have hcomma := hsep ',' (List.mem_of_elem_eq_true rfl)
    obtain ⟨hsetting, happend⟩ := PendingProperty.ofGlyphs_append_value (g := g) hitem
    have hdrops : (Owner.propertyValue f x v).drops o g = false := by
      simp [Owner.drops, Owner.skipsBlanks]
    have hpast : ((Owner.propertyValue f x v).past o g).setting = .propertyValue := by
      rw [Owner.past]
      split <;> rfl
    rw [hdrops, if_neg Bool.false_ne_true, Owner.label, c.receive_propertyValue] at hfold
    rw [hfold]
    exact ⟨rfl, h.options, h.properties, by rw [happend, ← h.property]; rfl, hspells.owner,
      hpast.trans hsetting.symm, Glyph.separates_append h.noComma hcomma⟩

theorem paren_mem_marks (h : Listing o done item w p c) : ')' ∈ w.marks := by
  rcases h.owner_cases with ⟨f, x, rfl, -⟩ | ⟨f, x, v, rfl, -⟩
  · exact List.mem_of_elem_eq_true rfl
  · exact List.mem_of_elem_eq_true rfl

/-- The marks that separate in a list. The others open a bracket literal. -/
theorem separator_cases (h : Listing o done item w p c)
    (hrole : g.role = (p.cover.read o w.setting g.ch).1) (hplain : g.role = .plain)
    (hmark : g.ch ∈ w.marks) :
    g.separates ',' = true ∨ g.separates ')' = true
      ∨ g.separates '=' = true ∧ ∃ f x, w = .property f x := by
  have hp := Place.eq_text_of_plain h.owner (hrole.symm.trans hplain)
  have hsep : ∀ {ch}, g.ch = ch → g.separates ch = true := fun hch =>
    Glyph.separates_iff.mpr ⟨hplain, hch⟩
  rcases h.owner_cases with ⟨f, x, rfl, -⟩ | ⟨f, x, v, rfl, -⟩
  · simp only [Owner.marks, List.mem_cons, List.not_mem_nil, or_false] at hmark
    rcases hmark with hch | hch | hch
    · exact .inr (.inr ⟨hsep hch, f, x, rfl⟩)
    · exact .inl (hsep hch)
    · exact .inr (.inl (hsep hch))
  · simp only [Owner.marks, List.mem_cons, List.not_mem_nil, or_false] at hmark
    rw [hplain, hp] at hrole
    rcases hmark with hch | hch | hch | hch | hch
    · exact .inl (hsep hch)
    · exact .inr (.inl (hsep hch))
    all_goals
      rw [hch] at hrole
      cases hrole

/-- The first separating `=` of an item begins its value. -/
theorem separate {f x : Opening} (h : Listing o done item (.property f x) p c)
    (hrole : g.role = (p.cover.read o .propertyName g.ch).1) (hg : g.separates '=' = true) :
    ∃ es q v, p.next o g.offset g.ch = (es, .ok q) ∧ q.cover = .bare
      ∧ Listing o done (item ++ [g]) (.propertyValue f x v) q (es.foldl Collector.follow c) := by
  obtain ⟨hplain, heq⟩ := Glyph.separates_iff.mp hg
  obtain rfl := Place.eq_text_of_plain h.owner (hrole.symm.trans hplain)
  have hitem : itemSetting item = .propertyName := h.setting.symm
  obtain ⟨hsetting, happend⟩ := PendingProperty.ofGlyphs_append_separator hitem hg
  have hmem : g.ch ∈ (Owner.property f x).marks := by
    rw [heq]
    exact List.mem_of_elem_eq_true rfl
  have hcomma : g.separates ',' = false := by simp [Glyph.separates, heq]
  have hstack := Collector.stack_of_placed h.placed
  let v : Opening := { offset := g.offset, opener := g.ch }
  refine ⟨[.entered .propertyValue g.offset], .text (.propertyValue f x v) .none, v, ?_, rfl, ?_⟩
  · simp only [Place.next, Place.onText_of_mark hmem, Place.onMark, if_pos heq, v]
  · have hlabels : (Place.text (.propertyValue f x v) .none).labels
        = .propertyValue :: c.stack := by
      rw [hstack]
      rfl
    rw [List.foldl_cons, List.foldl_nil, Collector.follow_entered_propertyValue hlabels]
    exact ⟨rfl, h.options, h.properties, by rw [happend, ← h.property]; rfl, rfl, hsetting.symm,
      Glyph.separates_append h.noComma hcomma⟩

/-- What comes after an item, at the character that ends it. -/
def afterItem (n : Nat) (ch : Char) (f : Opening) : Place.Move :=
  if ch = ',' then
    ([.entered .property n], .ok (.text (.property f { offset := n, opener := ch }) .none))
  else Place.endList n ch

/-- The end of an item leaves its states, and the property is done. -/
theorem close (h : Listing o done item w (.text w .none) c) {n : Nat} {ch : Char}
    (hch : ch = ',' ∨ ch = ')') : ∃ es f,
    Place.onText o n ch w = Place.after es (afterItem n ch f)
      ∧ es.foldl Collector.follow c = c.finishProperty.placed (.list f) := by
  have hstack := Collector.stack_of_placed h.placed
  have hend : ∀ f, Place.endProperty n ch f
      = Place.after [.leaving .property n (some ch)] (afterItem n ch f) := by
    intro f
    rw [Place.endProperty, afterItem]
    split <;> rfl
  rcases h.owner_cases with ⟨f, x, rfl, -⟩ | ⟨f, x, v, rfl, -⟩
  · have hmem : ch ∈ (Owner.property f x).marks := by
      rcases hch with rfl | rfl <;> exact List.mem_of_elem_eq_true rfl
    have hne : ch ≠ '=' := by rcases hch with rfl | rfl <;> decide
    refine ⟨[.leaving .property n (some ch)], f, ?_, ?_⟩
    · rw [Place.onText_of_mark hmem, Place.onMark, if_neg hne, hend]
    · exact Collector.follow_leaving_property (by rw [hstack]; rfl)
  · have hmem : ch ∈ (Owner.propertyValue f x v).marks := by
      rcases hch with rfl | rfl <;> exact List.mem_of_elem_eq_true rfl
    have hnone : Bracket.ofOpener? ch = none := by rcases hch with rfl | rfl <;> rfl
    refine ⟨[.leaving .propertyValue n (some ch), .leaving .property n (some ch)], f, ?_, ?_⟩
    · rw [Place.onText_of_mark hmem]
      simp only [Place.onMark, hnone, hend]
      rfl
    · rw [List.foldl_cons, List.foldl_cons, List.foldl_nil,
        Collector.follow_leaving_propertyValue (q := .text (.property f x) .none)
          (by rw [hstack]; rfl)]
      exact Collector.follow_leaving_property rfl

theorem properties_finishProperty (h : Listing o done item w p c) :
    c.finishProperty.request.properties = some (done ++ (propertyOf o item).toList) := by
  rw [Collector.finishProperty_eq, Collector.pendingProperty_ofGlyphs h.property, h.options]
  simp only [h.properties, Option.map_some]

/-- A comma ends an item and begins the next one. -/
theorem comma (h : Listing o done item w p c) (hrole : g.role = (p.cover.read o w.setting g.ch).1)
    (hg : g.separates ',' = true) :
    ∃ es q f x, p.next o g.offset g.ch = (es, .ok q) ∧ q.cover = .bare
      ∧ Listing o (done ++ (propertyOf o item).toList) [] (.property f x) q
        (es.foldl Collector.follow c) := by
  obtain ⟨hplain, hch⟩ := Glyph.separates_iff.mp hg
  obtain rfl := Place.eq_text_of_plain h.owner (hrole.symm.trans hplain)
  obtain ⟨es, f, hnext, hfold⟩ := h.close (n := g.offset) (.inl hch)
  let x : Opening := { offset := g.offset, opener := g.ch }
  refine ⟨es ++ [Event.entered .property g.offset], .text (.property f x) .none, f, x, ?_, rfl, ?_⟩
  · rw [Place.next, hnext, afterItem, if_pos hch]
    rfl
  · rw [List.foldl_append, hfold]
    exact ⟨rfl, h.options, h.properties_finishProperty, rfl, rfl, rfl, by simp⟩

/-- A closing parenthesis ends the last item and the list. -/
theorem paren (h : Listing o done item w p c) (hrole : g.role = (p.cover.read o w.setting g.ch).1)
    (hg : g.separates ')' = true) :
    ∃ es f, p.next o g.offset g.ch = (es, .ok (.requestEnd f))
      ∧ .leaving .propertyList g.offset (some ')') ∈ es
      ∧ (es.foldl Collector.follow c).request.properties
        = some (done ++ (propertyOf o item).toList) := by
  obtain ⟨hplain, hch⟩ := Glyph.separates_iff.mp hg
  obtain rfl := Place.eq_text_of_plain h.owner (hrole.symm.trans hplain)
  obtain ⟨es, f, hnext, hfold⟩ := h.close (n := g.offset) (.inr hch)
  have hne : g.ch ≠ ',' := by
    rw [hch]
    decide
  refine ⟨es ++ (Place.endList g.offset g.ch).1, { offset := g.offset, opener := g.ch }, ?_, ?_, ?_⟩
  · rw [Place.next, hnext, afterItem, if_neg hne]
    rfl
  · simp [Place.endList, hch]
  · rw [List.foldl_append, hfold]
    exact h.properties_finishProperty

/-- A line that ends inside of a list is not accepted. -/
theorem finish_ne (h : Listing o done item w p c) (n : Nat) : (p.finish o n).2 ≠ none := by
  have howner := h.owner
  rcases h.owner_cases with ⟨f, x, rfl, -⟩ | ⟨f, x, v, rfl, -⟩
  · cases p with
    | text w s =>
      obtain rfl := Option.some.inj howner
      cases s <;> exact Option.some_ne_none _
    | _ => cases howner
  · cases p with
    | text w s =>
      obtain rfl := Option.some.inj howner
      cases s <;> exact Option.some_ne_none _
    | literal f x v b y depth =>
      simp only [Place.finish]
      split <;> exact Option.some_ne_none _
    | _ => cases howner

end Listing

/-- A property list is entered. -/
def Event.entersList : Event → Bool
  | .entered .propertyList _ => true
  | _ => false

section Frame

variable {c : Collector}

/-- Only the end of a property adds to the list that was entered. -/
theorem Collector.properties_follow {e : Event} (h : e.entersList = false) :
    (c.follow e).request.properties = c.request.properties
      ∨ e.state = .property ∧ (c.follow e).request.properties
        = c.request.properties.map (· ++ c.pendingProperty.toList) := by
  cases e with
  | entered l n => cases l <;> first | exact .inl rfl | cases h
  | character l ch n =>
    left
    change (c.take l ch).request.properties = _
    rw [take_request]
    split <;> rfl
  | leaving l n x =>
    rw [follow_leaving]
    cases l
    case property =>
      exact .inr ⟨rfl, congrArg (fun d : Collector => d.request.properties) (finishProperty_eq _)⟩
    case operationName =>
      left
      rw [leave_operationName]
      split <;> rfl
    all_goals exact .inl rfl

theorem Collector.properties_follow_of_state_ne {e : Event}
    (h : e.state ≠ .propertyList ∧ e.state ≠ .property) :
    (c.follow e).request.properties = c.request.properties := by
  have hentered : e.entersList = false := by
    unfold Event.entersList
    split
    · exact absurd rfl h.1
    · rfl
  rcases c.properties_follow hentered with hfollow | ⟨hstate, -⟩
  · exact hfollow
  · exact absurd hstate h.2

/-- What comes after the list leaves the properties alone. -/
theorem Place.properties_requestEnd (o : Options) (n : Nat) (cs : List Char) (f : Opening) :
    (((Place.requestEnd f).read o n cs).1.foldl Collector.follow c).request.properties
      = c.request.properties := by
  have houter : ∃ part ∈ [.requestEnd, .outputRedirect], (Place.requestEnd f).outer = some part :=
    ⟨.requestEnd, by simp, rfl⟩
  refine Collector.foldl_follow_eq (fun c => c.request.properties)
    (fun _ _ => Collector.properties_follow_of_state_ne) (fun e he => ⟨?_, ?_⟩) c
  · exact Place.state_ne_of_mem_read (by decide) (by decide) cs houter e he
  · exact Place.state_ne_of_mem_read (by decide) (by decide) cs houter e he

end Frame

section Reading

variable {o : Options} {done : List Property} {item : List Glyph} {w : Owner} {p : Place}
  {c : Collector} {n : Nat}

/-- The first closing parenthesis among the glyphs `gs` of `cs` comes after `body`, and reading `cs`
at the place `p` leaves the list there with the properties `ps`. -/
structure Closes (o : Options) (c : Collector) (n : Nat) (cs : List Char) (p : Place)
    (gs body : List Glyph) (close : Glyph) (rest : List Glyph) (ps : List Property) : Prop where
  glyphs : gs = body ++ close :: rest
  inside : ∀ g ∈ body, g.separates ')' = false
  separates : close.separates ')' = true
  leaves : .leaving .propertyList close.offset (some ')') ∈ (p.read o n cs).1
  properties : ((p.read o n cs).1.foldl Collector.follow c).request.properties = some ps

/-- A character before the closing parenthesis. -/
theorem Closes.cons {ch : Char} {cs : List Char} {es : List Event} {q : Place} {g close : Glyph}
    {gs body rest : List Glyph} {ps : List Property} (hnext : p.next o n ch = (es, .ok q))
    (hg : g.separates ')' = false)
    (h : Closes o (es.foldl Collector.follow c) (n + ch.utf8Size) cs q gs body close rest ps) :
    Closes o c n (ch :: cs) p (g :: gs) (g :: body) close rest ps := by
  have hread := Place.read_cons hnext cs
  refine ⟨by rw [h.glyphs, List.cons_append], ?_, h.separates, ?_, ?_⟩
  · intro x hx
    rcases List.mem_cons.mp hx with rfl | hx
    · exact hg
    · exact h.inside x hx
  · rw [hread]
    exact List.mem_append_right es h.leaves
  · rw [hread, Place.delay, List.foldl_append]
    exact h.properties

/-- From a place inside of an item the list is read to its end. -/
theorem Listing.closes (h : Listing o done item w p c) (cs : List Char)
    (hok : (p.read o n cs).2 = none) : ∃ body close rest,
    Closes o c n cs p (glyphs o n w.setting p.cover cs) body close rest
      (done ++ propertiesOf o (item ++ body)) := by
  induction cs generalizing n done item w p c with
  | nil => exact absurd hok (by simpa [Place.read, Place.feed, Place.delay] using h.finish_ne n)
  | cons ch cs ih =>
    let g : Glyph := { ch, role := (p.cover.read o w.setting ch).1, offset := n }
    have hglyphs : glyphs o n w.setting p.cover (ch :: cs) = g :: glyphs o (n + ch.utf8Size)
        (if g.role = .plain then w.setting.after g.ch else w.setting)
        (p.cover.read o w.setting g.ch).2 cs := rfl
    have hrole : g.role = (p.cover.read o w.setting g.ch).1 := rfl
    have hrest : ∀ {es q}, p.next o g.offset g.ch = (es, .ok q) →
        (q.read o (n + ch.utf8Size) cs).2 = none := by
      intro es q hnext
      rw [Place.read_cons hnext] at hok
      exact hok
    rw [hglyphs]
    by_cases hmark : g.role = .plain → g.ch ∉ w.marks
    · obtain ⟨es, q, hspells, hlisting⟩ := h.spell hrole hmark
      obtain ⟨body, close, rest, hcloses⟩ := ih hlisting (hrest hspells.next)
      rw [hspells.cover, Owner.setting_past o hmark, List.append_assoc] at hcloses
      have hparen : g.separates ')' = false :=
        Owner.separates_of_mem_marks hmark h.paren_mem_marks
      exact ⟨g :: body, close, rest, hcloses.cons hspells.next hparen⟩
    simp only [Classical.not_imp, not_not] at hmark
    obtain ⟨hplain, hmark⟩ := hmark
    rw [if_pos hplain, (Cover.read_of_plain hplain).2]
    rcases h.separator_cases hrole hplain hmark with hg | hg | ⟨hg, f, x, rfl⟩
    · obtain ⟨es, q, f, x, hnext, hcover, hlisting⟩ := h.comma hrole hg
      obtain ⟨body, close, rest, hcloses⟩ := ih hlisting (hrest hnext)
      have hch : g.ch = ',' := (Glyph.separates_iff.mp hg).2
      have hsetting : w.setting.after g.ch = .propertyName := by
        rw [hch]
        rcases h.owner_cases with ⟨f, x, rfl, -⟩ | ⟨f, x, v, rfl, -⟩ <;> rfl
      have hparen : g.separates ')' = false := by simp [Glyph.separates, hch]
      rw [hcover, List.append_assoc, List.nil_append, propertiesOf,
        ← Glyph.pieces_append_cons h.noComma hg] at hcloses
      rw [hsetting]
      exact ⟨g :: body, close, rest, hcloses.cons hnext hparen⟩
    · obtain ⟨es, f, hnext, hmem, hproperties⟩ := h.paren hrole hg
      have hread := Place.read_cons hnext cs
      refine ⟨[], g, _, rfl, by simp, hg, ?_, ?_⟩
      · rw [hread]
        exact List.mem_append_left _ hmem
      · rw [hread, Place.delay, List.foldl_append, Place.properties_requestEnd, hproperties,
          List.append_nil, propertiesOf, Glyph.pieces_of_piece h.noComma]
    · obtain ⟨es, q, v, hnext, hcover, hlisting⟩ := h.separate hrole hg
      obtain ⟨body, close, rest, hcloses⟩ := ih hlisting (hrest hnext)
      have hch : g.ch = '=' := (Glyph.separates_iff.mp hg).2
      have hsetting : (Owner.property f x).setting.after g.ch = .propertyValue := by
        rw [hch]
        rfl
      have hparen : g.separates ')' = false := by simp [Glyph.separates, hch]
      rw [hcover, List.append_assoc] at hcloses
      rw [hsetting]
      exact ⟨g :: body, close, rest, hcloses.cons hnext hparen⟩

/-- The list is read to its end from its opening parenthesis. -/
theorem Place.closes_list {f : Opening} (hplaced : c.placed (.list f) = c)
    (hoptions : c.options = o) (hproperties : c.request.properties = some [])
    (hproperty : c.property = {}) (cs : List Char)
    (hok : ((Place.list f).read o n cs).2 = none) : ∃ body close rest,
    Closes o c n cs (.list f) (glyphs o n .propertyName .bare cs) body close rest
      (propertiesOf o body) := by
  induction cs generalizing n with
  | nil => cases hok
  | cons ch cs ih =>
    by_cases hblank : o.isBlank ch = true
    · let g : Glyph := { ch, role := .plain, offset := n }
      have hnext : (Place.list f).next o n ch = ([], .ok (.list f)) := by
        rw [next, if_pos hblank]
      have hparen : g.separates ')' = false := Glyph.separates_of_blank hblank rfl
      rw [read_cons hnext] at hok
      obtain ⟨body, close, rest, hcloses⟩ := ih hok
      rw [← propertiesOf_cons_of_blank (g := g) rfl hblank] at hcloses
      rw [glyphs_cons_of_blank hblank]
      exact ⟨g :: body, close, rest, hcloses.cons hnext hparen⟩
    by_cases hclose : ch = ')'
    · subst hclose
      have hnext : (Place.list f).next o n ')' = endList n ')' := by
        simp only [next, if_neg hblank, if_true]
      have hread := read_cons hnext cs
      refine ⟨[], { ch := ')', role := .plain, offset := n }, _, rfl, by simp, rfl, ?_, ?_⟩
      · rw [hread]
        simp [delay]
      · rw [hread, delay, List.foldl_append, properties_requestEnd]
        exact hproperties
    · have hopening : (Place.list f).next o n ch = after [.entered .property n]
          ((Place.text (.property f { offset := n, opener := ch }) .none).next o n ch) := by
        simp only [next, if_neg hblank, if_neg hclose]
      have hread := read_opening hopening cs
      have hlisting : Listing o [] [] (.property f { offset := n, opener := ch })
          (.text (.property f { offset := n, opener := ch }) .none)
          (c.follow (.entered .property n)) := by
        refine ⟨?_, hoptions, hproperties, hproperty, rfl, rfl, by simp⟩
        rw [← hplaced]
        rfl
      rw [hread] at hok
      obtain ⟨body, close, rest, hcloses⟩ := hlisting.closes (ch :: cs) hok
      refine ⟨body, close, rest, hcloses.glyphs, hcloses.inside, hcloses.separates, ?_, ?_⟩
      · rw [hread]
        exact List.mem_append_right _ hcloses.leaves
      · rw [hread]
        exact hcloses.properties

end Reading

end RequestLine
