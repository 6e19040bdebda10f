import RequestLine.Proofs.Spelling

/-!
# What the collector has in hand

While a line is read the collector holds the parts of the request that are done, and of the next
part the characters it was given so far: a draft (`Draft`). Everything else in it is as it was at
the beginning. Each event either lets the draft be, adds a character to it, opens a new one or
brings it into the request, and then the text of the part is that of its characters, less blanks
at the ends (`Text.Thins`). So what has been given to the collector is at every moment in the
request or in the draft, in the order in which it was given (`Kept`).
-/

namespace RequestLine

namespace Text

/-- The text `cs` is what is left of the characters `ps` when some of the blanks that need not be
kept are taken away. -/
inductive Thins (isBlank : Char → Bool) : List (Char × Bool) → List Char → Prop
  | nil : Thins isBlank [] []
  | keep (p : Char × Bool) {ps : List (Char × Bool)} {cs : List Char} (h : Thins isBlank ps cs) :
    Thins isBlank (p :: ps) (p.1 :: cs)
  | drop {p : Char × Bool} {ps : List (Char × Bool)} {cs : List Char}
    (hp : isLoose isBlank p = true) (h : Thins isBlank ps cs) : Thins isBlank (p :: ps) cs

namespace Thins

variable {isBlank : Char → Bool} {ps qs : List (Char × Bool)} {cs ds : List Char}

theorem refl (ps : List (Char × Bool)) : Thins isBlank ps (ps.map Prod.fst) := by
  induction ps with
  | nil => exact .nil
  | cons p ps ih => exact .keep p ih

theorem of_loose (h : ∀ p ∈ ps, isLoose isBlank p = true) : Thins isBlank ps [] := by
  induction ps with
  | nil => exact .nil
  | cons p ps ih =>
    exact .drop (h p List.mem_cons_self) (ih fun q hq => h q (List.mem_cons_of_mem p hq))

theorem append (h : Thins isBlank ps cs) (h' : Thins isBlank qs ds) :
    Thins isBlank (ps ++ qs) (cs ++ ds) := by
  induction h with
  | nil => exact h'
  | keep p _ ih => exact .keep p ih
  | drop hp _ ih => exact .drop hp ih

end Thins

theorem thins_trimLoose (isBlank : Char → Bool) (ps : List (Char × Bool)) :
    Thins isBlank ps (trimLoose isBlank ps) := by
  have hstart : Thins isBlank (ps.takeWhile (isLoose isBlank)) [] :=
    .of_loose fun p hp => List.mem_takeWhile_imp hp
  have hend : ∀ qs : List (Char × Bool), Thins isBlank (qs.rtakeWhile (isLoose isBlank)) [] :=
    fun qs => .of_loose fun p hp => List.mem_rtakeWhile_imp hp
  let rest := ps.dropWhile (isLoose isBlank)
  have hrest : Thins isBlank rest ((rest.rdropWhile (isLoose isBlank)).map Prod.fst ++ []) := by
    have happend := (Thins.refl (rest.rdropWhile (isLoose isBlank))).append (hend rest)
    rwa [List.rdropWhile_append_rtakeWhile] at happend
  have hps : Thins isBlank (ps.takeWhile (isLoose isBlank) ++ rest) _ := hstart.append hrest
  rwa [List.takeWhile_append_dropWhile, List.append_nil, List.nil_append] at hps

end Text

/-- The texts of a step, a navigation word as it is written. -/
def Step.texts : Step → List String
  | node s => s.nodeType :: s.name.toList
  | parent => [".."]
  | current => ["."]
  | nodeType => [".type"]

def Property.texts (p : Property) : List String :=
  p.name :: p.value.toList

/-- The texts of a request, in the order in which they are written. -/
def Request.texts (r : Request) : List String :=
  r.address.flatMap Step.texts ++ r.operation.toList
    ++ (r.properties.getD []).flatMap Property.texts ++ (r.redirect.map Redirect.target).toList

def Request.chars (r : Request) : List Char :=
  r.texts.flatMap String.toList

/-- The request has no part but an address. -/
def Request.IsAddress (r : Request) : Prop :=
  r.operation = none ∧ r.properties = none ∧ r.redirect = none

/-- A step has the texts that it is made of, whether it is a node or a navigation word. -/
theorem Collector.chars_stepOf (literal : Bool) (type : String) (name : Option String) :
    ((stepOf literal type name).toList.flatMap Step.texts).flatMap String.toList
      = type.toList ++ (name.getD "").toList := by
  cases name with
  | some name => simp [stepOf, Step.texts]
  | none =>
    simp only [stepOf]
    split
    · rename_i hempty
      simp [hempty]
    split
    · simp [Step.texts]
    · unfold Step.ofWord?
      repeat' split
      all_goals simp_all [Step.texts]

/-- The character that an event passes on for a text, and whether it is to be kept since it comes
out of a literal. The root of an address and the second mark of a redirect are no texts. -/
def Event.given? : Event → Option (Char × Bool)
  | .character l ch _ =>
    if l = .initial ∨ l = .outputRedirect then none else some (ch, l.isLiteral)
  | _ => none

theorem Field.isEmpty_pushAll (ps : List (Char × Bool)) : (pushAll ps).isEmpty = ps.isEmpty := by
  have htext := text_pushAll ps
  rw [isEmpty]
  cases ps with
  | nil => rfl
  | cons p ps =>
    rw [Bool.eq_iff_iff, String.isEmpty_iff]
    constructor
    · intro hnil
      rw [hnil] at htext
      cases htext
    · intro hnil
      cases hnil

/-- The part of a request that is being read, with the characters of its texts. -/
inductive Draft where
  | nothing
  | segment (type : List (Char × Bool)) (name : Option (List (Char × Bool)))
  | operation (name : List (Char × Bool))
  | property (name : List (Char × Bool)) (value : Option (Nat × List (Char × Bool)))
  | redirect (mode : RedirectMode) (target : List (Char × Bool))

namespace Draft

/-- The state that owns the text that is being read. -/
def label : Draft → Label
  | nothing => .initial
  | segment _ none => .node
  | segment _ (some _) => .nodeName
  | operation _ => .operationName
  | property _ none => .property
  | property _ (some _) => .propertyValue
  | redirect _ _ => .outputTarget

def chars : Draft → List (Char × Bool)
  | nothing => []
  | segment type name => type ++ name.getD []
  | operation name => name
  | property name value => name ++ (value.map Prod.snd).getD []
  | redirect _ target => target

/-- The draft with one more character. -/
def add (p : Char × Bool) : Draft → Draft
  | nothing => nothing
  | segment type none => segment (type ++ [p]) none
  | segment type (some name) => segment type (some (name ++ [p]))
  | operation name => operation (name ++ [p])
  | property name none => property (name ++ [p]) none
  | property name (some (n, value)) => property name (some (n, value ++ [p]))
  | redirect mode target => redirect mode (target ++ [p])

/-- The collector with the draft in hand. -/
def onto (o : Options) (st : List Label) (r : Request) : Draft → Collector
  | nothing => { options := o, stack := st, request := r }
  | segment type name =>
    { options := o, stack := st, request := r, nodeType := .pushAll type
      nodeName := name.map .pushAll }
  | operation name => { options := o, stack := st, request := r, operation := .pushAll name }
  | property name value =>
    { options := o, stack := st, request := r
      property :=
        { name := .pushAll name, value := value.map fun v => .pushAll v.2
          valueSeparator := value.map Prod.fst } }
  | redirect mode target =>
    { options := o, stack := st, request := r, mode, target := .pushAll target }

/-- The text that is made of the characters. -/
def text (o : Options) (ps : List (Char × Bool)) : String :=
  String.ofList (Text.trimLoose o.isBlank ps)

/-- The state at whose end the draft is done. -/
def part : Draft → Label
  | nothing => .initial
  | segment _ _ => .node
  | operation _ => .operationName
  | property _ _ => .property
  | redirect _ _ => .outputRedirect

/-- The request with the draft as a part of it. -/
def into (o : Options) (r : Request) : Draft → Request
  | nothing => r
  | segment type name =>
    { r with
      address := r.address
        ++ (Collector.stepOf (type.any Prod.snd) (text o type) (name.map (text o))).toList }
  | operation name => if name.isEmpty then r else { r with operation := some (text o name) }
  | property name value =>
    { r with
      properties := r.properties.map (· ++
        (if text o name = "" && value.isNone then []
        else [{ name := text o name, value := value.map fun v => text o v.2
                valueSeparator := value.map Prod.fst }])) }
  | redirect mode target => { r with redirect := some { mode, target := text o target } }

/-- The parts of the request that come after the draft are not there yet. -/
def Fits (r : Request) : Draft → Prop
  | nothing => True
  | segment _ _ | operation _ => r.IsAddress
  | property _ _ => r.properties ≠ none ∧ r.redirect = none
  | redirect _ _ => r.redirect = none

/-- What the draft is if the state `l` owns the text that is being read. -/
def IsOf (d : Draft) : Label → Prop
  | .node => ∃ type, d = segment type none
  | .nodeName => ∃ type name, d = segment type (some name)
  | .operationName => ∃ name, d = operation name
  | .property => ∃ name, d = property name none
  | .propertyValue => ∃ name value, d = property name (some value)
  | .outputTarget => ∃ mode target, d = redirect mode target
  | _ => d = nothing

theorem isOf_of_label {d : Draft} {l : Label} (h : d.label = l) : d.IsOf l := by
  subst h
  rcases d with _ | ⟨_, _ | _⟩ | _ | ⟨_, _ | _⟩ | _ <;> simp [IsOf, label]

section Following

variable {o : Options} {st : List Label} {r : Request} {d : Draft} {l : Label} {n : Nat}

theorem label_add (d : Draft) (p : Char × Bool) : (d.add p).label = d.label := by
  rcases d with _ | ⟨_, _ | _⟩ | _ | ⟨_, _ | _⟩ | _ <;> rfl

theorem Fits.add {p : Char × Bool} (h : d.Fits r) : (d.add p).Fits r := by
  rcases d with _ | ⟨_, _ | _⟩ | _ | ⟨_, _ | _⟩ | _ <;> exact h

theorem chars_add (hd : d.label ≠ .initial) (p : Char × Bool) :
    (d.add p).chars = d.chars ++ [p] := by
  rcases d with _ | ⟨_, _ | _⟩ | _ | ⟨_, _ | _⟩ | _
  · exact absurd rfl hd
  all_goals simp [add, chars]

theorem onto_stack : (d.onto o st r).stack = st := by
  cases d <;> rfl

theorem give_onto (ch : Char) (keep : Bool) (hd : d.label ≠ .initial) :
    ((d.onto o st r).give d.label ch keep).plain = (d.add (ch, keep)).onto o st r := by
  rcases d with _ | ⟨_, _ | _⟩ | _ | ⟨_, _ | _⟩ | _
  · exact absurd rfl hd
  all_goals
    simp only [add, onto, label, Option.map_some, Option.map_none, Field.pushAll_append]
    rfl

/-- A character goes to the text that is being read. -/
theorem follow_character_onto {ch : Char} {keep : Bool} (hl : l ≠ .initial)
    (hd : d.label ≠ .initial) (howner : textOwner st = some (d.label, keep)) :
    (d.onto o st r).follow (.character l ch n) = (d.add (ch, keep)).onto o st r := by
  rw [Collector.follow_character hl (by rw [onto_stack]; exact howner)]
  exact give_onto ch keep hd

theorem follow_entered_onto (hl : l.isLiteral = true) :
    (d.onto o st r).follow (.entered l n) = d.onto o (l :: st) r := by
  cases l <;> first | (cases d <;> rfl) | cases hl

theorem follow_leaving_onto {x : Option Char} (hl : l.isLiteral = true) :
    (d.onto o (l :: st) r).follow (.leaving l n x) = d.onto o st r := by
  cases l <;> first | (cases d <;> rfl) | cases hl

theorem textOf_onto (ps : List (Char × Bool)) :
    (d.onto o st r).textOf (.pushAll ps) = text o ps := by
  have hoptions : (d.onto o st r).options = o := by cases d <;> rfl
  rw [Collector.textOf, hoptions, Field.finish_pushAll, text]

theorem finishSegment_onto (type : List (Char × Bool)) (name : Option (List (Char × Bool))) :
    ((segment type name).onto o st r).finishSegment
      = nothing.onto o st ((segment type name).into o r) := by
  have hname : (name.map Field.pushAll).map ((segment type name).onto o st r).textOf
      = name.map (text o) := by
    rw [Option.map_map]
    exact congrArg (name.map ·) (funext textOf_onto)
  have hstep : Collector.stepOf (Field.pushAll type).kept.isSome
      (((segment type name).onto o st r).textOf (Field.pushAll type))
      ((name.map Field.pushAll).map ((segment type name).onto o st r).textOf)
        = Collector.stepOf (type.any Prod.snd) (text o type) (name.map (text o)) := by
    rw [hname, textOf_onto, Field.kept_pushAll]
  rw [Collector.finishSegment_eq]
  exact congrArg (fun step : Option Step =>
    nothing.onto o st { r with address := r.address ++ step.toList }) hstep

theorem pendingProperty_onto (name : List (Char × Bool))
    (value : Option (Nat × List (Char × Bool))) :
    ((property name value).onto o st r).pendingProperty
      = if text o name = "" && value.isNone then none
        else some { name := text o name, value := value.map fun v => text o v.2
                    valueSeparator := value.map Prod.fst } := by
  rw [Collector.pendingProperty, Collector.writtenProperty]
  have hname : ((property name value).onto o st r).property.name = .pushAll name := rfl
  have hvalue : ((property name value).onto o st r).property.value
      = value.map fun v => .pushAll v.2 := rfl
  have hseparator : ((property name value).onto o st r).property.valueSeparator
      = value.map Prod.fst := rfl
  simp only [hname, hvalue, hseparator, textOf_onto, Option.map_map, Option.isNone_map,
    Function.comp_def]

theorem finishProperty_onto (name : List (Char × Bool))
    (value : Option (Nat × List (Char × Bool))) :
    ((property name value).onto o st r).finishProperty
      = nothing.onto o st ((property name value).into o r) := by
  have hpending : (((property name value).onto o st r).pendingProperty).toList
      = if text o name = "" && value.isNone then []
        else [{ name := text o name, value := value.map fun v => text o v.2
                valueSeparator := value.map Prod.fst }] := by
    rw [pendingProperty_onto]
    split <;> rfl
  rw [Collector.finishProperty_eq]
  exact congrArg (fun ps : List Property =>
    nothing.onto o st { r with properties := r.properties.map (· ++ ps) }) hpending

/-- At the end of its part the draft goes into the request. -/
theorem follow_leaving_part {x : Option Char} (hd : d.part ≠ .outputRedirect) :
    (d.onto o (d.part :: st) r).follow (.leaving d.part n x)
      = nothing.onto o st (d.into o r) := by
  rw [Collector.follow_leaving]
  cases d with
  | nothing => rfl
  | segment type name => exact congrArg Collector.plain (finishSegment_onto type name)
  | operation name =>
    have hempty : ((operation name).onto o st r).operation.isEmpty = name.isEmpty :=
      Field.isEmpty_pushAll name
    have htext : ((operation name).onto o st r).textOf (.pushAll name) = text o name :=
      textOf_onto name
    change Collector.plain (if ((operation name).onto o st r).operation.isEmpty then
      (operation name).onto o st r else _) = _
    rw [hempty, into]
    split
    · rename_i hnil
      rw [List.isEmpty_iff.mp hnil]
      rfl
    · exact congrArg (fun t : String => nothing.onto o st { r with operation := some t }) htext
  | property name value => exact congrArg Collector.plain (finishProperty_onto name value)
  | redirect mode target => exact absurd rfl hd

/-- The redirect too, though the collector remembers its mode. -/
theorem exists_follow_leaving_part {x : Option Char} :
    ∃ mode, (d.onto o (d.part :: st) r).follow (.leaving d.part n x)
      = { options := o, stack := st, request := d.into o r, mode } := by
  by_cases hd : d.part = .outputRedirect
  · cases d with
    | redirect mode target =>
      have htext : ((redirect mode target).onto o st r).textOf (.pushAll target) = text o target :=
        textOf_onto target
      exact ⟨mode, congrArg (fun t : String =>
        ({ options := o, stack := st, mode
           request := { r with redirect := some { mode, target := t } } } : Collector)) htext⟩
    | _ => cases hd
  · exact ⟨.overwrite, follow_leaving_part hd⟩

/-- The texts of a draft, as parts of the request, are its characters less blanks. -/
theorem exists_thins_into (o : Options) (hd : d.Fits r) :
    ∃ new, (d.into o r).chars = r.chars ++ new ∧ Text.Thins o.isBlank d.chars new := by
  have hthins : ∀ ps, Text.Thins o.isBlank ps (text o ps).toList := fun ps => by
    rw [text, String.toList_ofList]
    exact Text.thins_trimLoose o.isBlank ps
  cases d with
  | nothing => exact ⟨[], by rw [into, List.append_nil], .nil⟩
  | segment type name =>
    obtain ⟨hop, hprops, hredirect⟩ := hd
    refine ⟨(text o type).toList ++ ((name.map (text o)).getD "").toList, ?_, ?_⟩
    · rw [← Collector.chars_stepOf (type.any Prod.snd)]
      simp only [into, Request.chars, Request.texts, hop, hprops, hredirect, List.flatMap_append]
      simp
    · cases name with
      | none => exact (hthins type).append .nil
      | some name => exact (hthins type).append (hthins name)
  | operation name =>
    obtain ⟨hop, hprops, hredirect⟩ := hd
    simp only [into]
    split
    · rename_i hnil
      rw [List.isEmpty_iff.mp hnil]
      exact ⟨[], (List.append_nil _).symm, .nil⟩
    · refine ⟨(text o name).toList, ?_, hthins name⟩
      simp [Request.chars, Request.texts, hop, hprops, hredirect]
  | property name value =>
    obtain ⟨hprops, hredirect⟩ := hd
    obtain ⟨ps, hps⟩ := Option.ne_none_iff_exists'.mp hprops
    refine ⟨(text o name).toList ++ ((value.map fun v => text o v.2).getD "").toList, ?_, ?_⟩
    · simp only [into, Request.chars, Request.texts, hps, hredirect]
      split
      · rename_i hempty
        simp only [Bool.and_eq_true, decide_eq_true_eq, Option.isNone_iff_eq_none] at hempty
        simp [hempty.1, hempty.2]
      · cases value <;> simp [Property.texts]
    · cases value with
      | none => exact (hthins name).append .nil
      | some value => exact (hthins name).append (hthins value.2)
  | redirect mode target =>
    refine ⟨(text o target).toList, ?_, hthins target⟩
    have hredirect : r.redirect = none := hd
    simp [into, Request.chars, Request.texts, hredirect]

end Following

end Draft

/-- After the events `es` the states `st` are open, the parts of `r` are done and the draft `d` is
in hand. The characters that the events passed on for texts are those of the request, some blanks
apart, and then those of the draft. -/
structure Kept (o : Options) (es : List Event) (st : List Label) (r : Request) (d : Draft) :
    Prop where
  fold : es.foldl Collector.follow { options := o } = d.onto o st r
  thins : ∃ done, es.filterMap Event.given? = done ++ d.chars ∧ Text.Thins o.isBlank done r.chars

/-- The events make the request `r` of the characters that they pass on for texts, and after them
the collector has nothing else in hand. It remembers the mode of a redirection, which is set anew
when the next one begins. -/
structure Settles (o : Options) (es : List Event) (r : Request) : Prop where
  fold : ∃ mode, es.foldl Collector.follow { options := o } = { options := o, request := r, mode }
  thins : Text.Thins o.isBlank (es.filterMap Event.given?) r.chars

theorem Settles.request {o : Options} {es : List Event} {r : Request} (h : Settles o es r) :
    (es.foldl Collector.follow { options := o }).request = r := by
  obtain ⟨mode, hfold⟩ := h.fold
  exact congrArg Collector.request hfold

namespace Kept

variable {o : Options} {es : List Event} {st : List Label} {r : Request} {d : Draft} {e : Event}
  {l : Label} {n : Nat}

theorem nil (o : Options) : Kept o [] [] {} .nothing :=
  ⟨rfl, [], rfl, .nil⟩

theorem settles (h : Kept o es [] r .nothing) : Settles o es r := by
  obtain ⟨done, hdone, hthins⟩ := h.thins
  refine ⟨⟨.overwrite, h.fold⟩, ?_⟩
  rw [hdone]
  simpa [Draft.chars] using hthins

/-- An event that passes nothing on for a text and finishes nothing. -/
theorem quiet (h : Kept o es st r d) {st' : List Label} {r' : Request} {d' : Draft}
    (he : e.given? = none) (hfollow : (d.onto o st r).follow e = d'.onto o st' r')
    (hr : r'.chars = r.chars) (hd : d'.chars = d.chars) : Kept o (es ++ [e]) st' r' d' := by
  refine ⟨by rw [List.foldl_append, h.fold]; exact hfollow, ?_⟩
  obtain ⟨done, hdone, hthins⟩ := h.thins
  exact ⟨done, by simp [hdone, he, hd], hr ▸ hthins⟩

theorem give (h : Kept o es st r d) (ch : Char) (n : Nat) (hl : l ≠ .initial)
    (hl' : l ≠ .outputRedirect) (hd : d.label ≠ .initial)
    (howner : textOwner st = some (d.label, l.isLiteral)) :
    Kept o (es ++ [Event.character l ch n]) st r (d.add (ch, l.isLiteral)) := by
  refine ⟨?_, ?_⟩
  · rw [List.foldl_append, h.fold]
    exact Draft.follow_character_onto hl hd howner
  · obtain ⟨done, hdone, hthins⟩ := h.thins
    refine ⟨done, ?_, hthins⟩
    simp [hdone, Draft.chars_add hd, Event.given?, hl, hl']

theorem thins_into (h : Kept o es st r d) (hd : d.Fits r) :
    Text.Thins o.isBlank (es.filterMap Event.given?) (d.into o r).chars := by
  obtain ⟨done, hdone, hthins⟩ := h.thins
  obtain ⟨new, hnew, hchars⟩ := Draft.exists_thins_into o hd
  rw [hdone, hnew]
  exact hthins.append hchars

/-- The part that is being read is done. -/
theorem finish (h : Kept o es (d.part :: st) r d) (hd : d.Fits r) (hpart : d.part ≠ .outputRedirect)
    (n : Nat) (x : Option Char) :
    Kept o (es ++ [Event.leaving d.part n x]) st (d.into o r) .nothing := by
  refine ⟨by rw [List.foldl_append, h.fold]; exact Draft.follow_leaving_part hpart, _, ?_,
    h.thins_into hd⟩
  simp [Event.given?, Draft.chars]

/-- The part that is read last settles the request. -/
theorem settle (h : Kept o es [d.part] r d) (hd : d.Fits r) (n : Nat) (x : Option Char) :
    Settles o (es ++ [Event.leaving d.part n x]) (d.into o r) := by
  refine ⟨?_, ?_⟩
  · rw [List.foldl_append, h.fold]
    exact Draft.exists_follow_leaving_part
  have hnone : [Event.leaving d.part n x].filterMap Event.given? = [] := rfl
  rw [List.filterMap_append, hnone, List.append_nil]
  exact h.thins_into hd

theorem enter_literal (h : Kept o es st r d) (hl : l.isLiteral = true) (n : Nat) :
    Kept o (es ++ [Event.entered l n]) (l :: st) r d :=
  h.quiet rfl (Draft.follow_entered_onto hl) rfl rfl

theorem leave_literal (h : Kept o es (l :: st) r d) (hl : l.isLiteral = true) (n : Nat)
    (x : Option Char) : Kept o (es ++ [Event.leaving l n x]) st r d :=
  h.quiet rfl (Draft.follow_leaving_onto hl) rfl rfl

end Kept

end RequestLine
