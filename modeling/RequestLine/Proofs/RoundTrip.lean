import RequestLine.Proofs.Gathering

/-!
# Writing requests and reading them back

A well-formed request is read from the line it is written as (`Request.parse_render`), up to the
offsets of its value separators, which are those of the line. The line is read part by part.
Between the parts the collector `Stands` for the request so far: the states that are still open
could be closed and would leave nothing else behind, and a blank would not change that. So each
part has a statement of its own, from one such moment to the next.
-/

namespace RequestLine

/-- The property without its place in a line. -/
def Property.unplaced (p : Property) : Property :=
  { p with valueSeparator := none }

def Request.unplaced (r : Request) : Request :=
  { r with properties := r.properties.map (·.map Property.unplaced) }

namespace Collector

/-- The collector that has gathered `r` and nothing else. -/
def base (r : Request) : Collector :=
  { request := r }

/-- The collector after the states `ls` were left. -/
def closed (ls : List Label) (c : Collector) : Collector :=
  ls.foldl (fun c l => (c.leave l none).plain) c

theorem foldl_follow_leaving (c : Collector) (ls : List Label) (n : Nat) (x : Option Char) :
    (ls.map fun l => Event.leaving l n x).foldl follow c = c.closed ls := by
  induction ls generalizing c with
  | nil => rfl
  | cons l ls ih =>
    rw [List.map_cons, List.foldl_cons, follow_leaving, ih]
    rfl

end Collector

open Collector (base)

/-! ## The parts -/

namespace Place

/-- The places where a part may end, with the characters that close all open states there and open
another part. -/
inductive Boundary : Place → List Char → Prop
  | start : Boundary .start [':', '(', '>']
  | node (f : Opening) : Boundary (.text (.node f) .none) ['/', ':', '(', '>']
  | nodeName (f g : Opening) : Boundary (.text (.nodeName f g) .none) ['/', ':', '(', '>']
  | operation {f : Opening} (hf : f.forwarded ≠ 0) : Boundary (.operation f) ['(', '>']
  | requestEnd (f : Opening) : Boundary (.requestEnd f) ['>']

/-- The label and the place of the part that `ch` opens. -/
def part (n : Nat) (ch : Char) : Label × Place :=
  let f : Opening := { offset := n, opener := ch }
  if ch = '/' then (.node, .text (.node f) .none)
  else if ch = ':' then (.operationName, .operation f)
  else if ch = '(' then (.propertyList, .list f)
  else (.outputRedirect, .redirect f)

section Boundaries

variable {p : Place} {chs : List Char} {n : Nat} {ch : Char}

theorem Boundary.mem (h : Boundary p chs) : '>' ∈ chs := by
  cases h <;> decide

theorem next_part (h : Boundary p chs) (hch : ch ∈ chs) :
    p.next {} n ch = ((p.labels.map fun l => Event.leaving l n (some ch))
        ++ [Event.entered (part n ch).1 n],
      .ok (part n ch).2) := by
  cases h with
  | start =>
    simp only [List.mem_cons, List.not_mem_nil, or_false] at hch
    rcases hch with rfl | rfl | rfl <;> rfl
  | node f =>
    simp only [List.mem_cons, List.not_mem_nil, or_false] at hch
    rcases hch with rfl | rfl | rfl | rfl
    all_goals
      rw [next, onText_of_mark (by simp [Owner.marks])]
      rfl
  | nodeName f g =>
    simp only [List.mem_cons, List.not_mem_nil, or_false] at hch
    rcases hch with rfl | rfl | rfl | rfl
    all_goals
      rw [next, onText_of_mark (by simp [Owner.marks])]
      rfl
  | operation hf =>
    simp only [List.mem_cons, List.not_mem_nil, or_false] at hch
    rcases hch with rfl | rfl
    all_goals
      simp only [next, onOperation, endOperation, if_neg hf]
      rfl
  | requestEnd f =>
    obtain rfl := List.mem_singleton.mp hch
    rfl

theorem finish_boundary (h : Boundary p chs) :
    p.finish {} n = (p.labels.map fun l => .leaving l n none, none) := by
  cases h with
  | start => rfl
  | node f => rfl
  | nodeName f g => rfl
  | operation hf =>
    simp only [finish, if_neg hf]
    rfl
  | requestEnd f => rfl

end Boundaries

end Place

open Place (Boundary)

/-- The collector has gathered `r` up to the place `p`, where a part may end. -/
structure Stands (r : Request) (p : Place) (chs : List Char) (c : Collector) : Prop where
  boundary : Boundary p chs
  closes : c.closed p.labels = base r
  blank : p ≠ .start → ∀ n, ∃ q chs' d, Gathers n p c [' '] q d ∧ Boundary q chs'
    ∧ d.closed q.labels = base r

theorem Place.gathers_part {r : Request} {p : Place} {chs : List Char} {c : Collector} {n : Nat}
    (hp : Boundary p chs) (hc : c.closed p.labels = base r) (ch : Char) (hch : ch ∈ chs) :
    Gathers n p c [ch] (part n ch).2 ((base r).follow (.entered (part n ch).1 n)) := by
  refine .single (next_part hp hch) ?_
  rw [List.foldl_append, Collector.foldl_follow_leaving, hc]
  rfl

namespace Stands

variable {r : Request} {p : Place} {chs : List Char} {c : Collector} {n : Nat}

theorem part (h : Stands r p chs c) (ch : Char) (hch : ch ∈ chs) :
    Gathers n p c [ch] (Place.part n ch).2
      ((base r).follow (.entered (Place.part n ch).1 n)) :=
  Place.gathers_part h.boundary h.closes ch hch

theorem start (r : Request) : Stands r .start [':', '(', '>'] (base r) :=
  ⟨.start, rfl, fun h => absurd rfl h⟩

theorem requestEnd (r : Request) (f : Opening) :
    Stands r (.requestEnd f) ['>'] { base r with stack := [.requestEnd] } :=
  ⟨.requestEnd f, rfl, fun _ _ => ⟨.requestEnd f, _, _, .single rfl rfl, .requestEnd f, rfl⟩⟩

/-- A blank after a text is dropped or goes to the field. -/
theorem gathers_blank (w : Owner) (x : Field) (c : Collector) (n : Nat) : ∃ k y,
    Gathers n (.text w .none) (w.holding .none x c) [' '] (.text (w.grown k) .none)
      (w.holding .none y c) ∧ (y = x ∨ y = x.push ' ' false) := by
  by_cases hw : w.skipsBlanks = true
  · have hgrown : w.grown 0 = w := by cases w <;> rfl
    have hnext : Place.next {} n ' ' (.text w .none) = ([], .ok (.text w .none)) := by
      simp only [Place.next, Place.onText, hw]
      rfl
    exact ⟨0, x, by rw [hgrown]; exact .single hnext rfl, .inl rfl⟩
  · have hgrown : w.counted = w.grown 1 := by cases w <;> rfl
    have hmarks : ' ' ∉ w.marks := by cases w <;> simp [Owner.marks]
    have hnext : Place.next {} n ' ' (.text w .none)
        = ([.character w.label ' ' n], .ok (.text (w.grown 1) .none)) := by
      simp [Place.next, Place.onText, hw, hmarks, hgrown]
    refine ⟨1, x.push ' ' false, .single hnext ?_, .inr rfl⟩
    exact Owner.follow_holding (s := .none) (by cases w <;> simp [Owner.label])

theorem closed_node {f : Opening} {x : Field} {t : String} (r : Request) (b : Bool)
    (hx : x.finish Text.isPlainBlank = t) (hb : x.kept.isSome = b) :
    ((Owner.node f).holding .none x (base r)).closed [.node] =
      base { r with address := r.address ++ (Collector.stepOf b t none).toList } := by
  rw [← hx, ← hb]
  rfl

theorem node {f : Opening} {x : Field} {t : String} (r : Request) (hx : x.Spells t) :
    Stands { r with address := r.address ++ (Collector.stepOf x.kept.isSome t none).toList }
      (.text (.node f) .none) ['/', ':', '(', '>']
      ((Owner.node f).holding .none x (base r)) := by
  refine ⟨.node f, closed_node r _ hx.1 rfl, fun _ n => ?_⟩
  obtain ⟨k, y, hblank, rfl | rfl⟩ := gathers_blank (.node f) x (base r) n
  · exact ⟨_, _, _, hblank, .node _, closed_node r _ hx.1 rfl⟩
  · exact ⟨_, _, _, hblank, .node _, closed_node r _ hx.2 rfl⟩

theorem closed_nodeName {f g : Opening} {x y : Field} {t s : String} (r : Request)
    (hx : x.finish Text.isPlainBlank = t) (hy : y.finish Text.isPlainBlank = s) :
    ((Owner.nodeName f g).holding .none y { base r with nodeType := x }).closed
        [.nodeName, .node] =
      base { r with address := r.address ++ [.node { nodeType := t, name := some s }] } := by
  rw [← hx, ← hy]
  rfl

theorem nodeName {f g : Opening} {x y : Field} {t s : String} (r : Request) (hx : x.Spells t)
    (hy : y.Spells s) :
    Stands { r with address := r.address ++ [.node { nodeType := t, name := some s }] }
      (.text (.nodeName f g) .none) ['/', ':', '(', '>']
      ((Owner.nodeName f g).holding .none y { base r with nodeType := x }) := by
  refine ⟨.nodeName f g, closed_nodeName r hx.1 hy.1, fun _ n => ?_⟩
  obtain ⟨k, z, hblank, rfl | rfl⟩ :=
    gathers_blank (.nodeName f g) y { base r with nodeType := x } n
  · exact ⟨_, _, _, hblank, .nodeName _ _, closed_nodeName r hx.1 hy.1⟩
  · exact ⟨_, _, _, hblank, .nodeName _ _, closed_nodeName r hx.1 hy.2⟩

theorem closed_operation {x : Field} {s : String} (r : Request)
    (hx : x.finish Text.isPlainBlank = s) (hne : x.text ≠ "") :
    ({ base r with stack := [.operationName], operation := x } : Collector).closed
      [.operationName] = base { r with operation := some s } := by
  have hempty : x.isEmpty = false := by simpa [Field.isEmpty] using hne
  simp only [Collector.closed, List.foldl_cons, List.foldl_nil, Collector.leave_operationName,
    hempty, Bool.false_eq_true, if_false]
  rw [← hx]
  rfl

theorem operation {f : Opening} {x : Field} {s : String} (r : Request) (hf : f.forwarded ≠ 0)
    (hx : x.Spells s) (hne : x.text ≠ "") :
    Stands { r with operation := some s } (.operation f) ['(', '>']
      { base r with stack := [.operationName], operation := x } := by
  refine ⟨.operation hf, closed_operation r hx.1 hne, fun _ n => ?_⟩
  have hnext : Place.next {} n ' ' (.operation f)
      = ([.character .operationName ' ' n], .ok (.operation f.counted)) := by
    simp [Place.next, Place.onOperation, hf]
  refine ⟨.operation f.counted, _, _, .single hnext rfl, .operation (Nat.succ_ne_zero _), ?_⟩
  exact closed_operation r hx.2 String.push_ne_empty

end Stands

section Address

variable {n : Nat} {f : Opening}

theorem gathers_word {word : String} {s : Step} (r : Request)
    (hword : ∀ ch ∈ word.toList, Place.Bare ch)
    (hs : Collector.stepOf false word none = some s) :
    ∃ p c, Gathers n (.text (.node f) .none) ((Owner.node f).holding .none {} (base r))
        word.toList p c
      ∧ Stands { r with address := r.address ++ [s] } p ['/', ':', '(', '>'] c := by
  have hread := Place.gathers_bare (n := n) (w := .node f) (f := {}) (c := base r) hword
  have hstands := Stands.node (f := { f with forwarded := f.forwarded + word.toList.length }) r
    (Field.bare_spells (Place.edged_of_bare hword))
  have hstep : Collector.stepOf (Field.bare word).kept.isSome word none = some s := hs
  rw [hstep] at hstands
  rw [Field.foldl_push_toList] at hread
  exact ⟨_, _, hread, hstands⟩

theorem stepOf_of_not_word {t : String} (ht : t ≠ "") (b : Bool)
    (hb : b = true ∨ Step.ofWord? t = none) :
    Collector.stepOf b t none = some (.node { nodeType := t }) := by
  rcases hb with rfl | hb
  · simp [Collector.stepOf, ht]
  · simp [Collector.stepOf, ht, hb]

theorem gathers_unnamed {t : String} (r : Request) (ht : t ≠ "") :
    ∃ p c, Gathers n (.text (.node f) .none) ((Owner.node f).holding .none {} (base r))
        ({ nodeType := t } : Segment).render.toList p c
      ∧ Stands { r with address := r.address ++ [.node { nodeType := t }] } p
        ['/', ':', '(', '>'] c := by
  simp only [Segment.render]
  split
  · have hstands := Stands.node (f := f) r (Field.literal_spells t)
    have hkept : (Field.literal t).kept.isSome = true := by simp [Field.literal, ht]
    rw [stepOf_of_not_word ht _ (.inl hkept)] at hstands
    exact ⟨_, _, Place.gathers_enquote t, hstands⟩
  · rename_i hword
    obtain ⟨k, x, hread, hx⟩ := Place.gathers_write (n := n) (w := .node f) (c := base r) t
    have hstands := Stands.node (f := { f with forwarded := f.forwarded + k }) r hx
    rw [stepOf_of_not_word ht _ (.inr (by simpa using hword))] at hstands
    exact ⟨_, _, hread, hstands⟩

theorem gathers_named {t s : String} (r : Request) :
    ∃ p c, Gathers n (.text (.node f) .none) ((Owner.node f).holding .none {} (base r))
        ({ nodeType := t, name := some s } : Segment).render.toList p c
      ∧ Stands { r with address := r.address ++ [.node { nodeType := t, name := some s }] } p
        ['/', ':', '(', '>'] c := by
  obtain ⟨k, x, htype, hx⟩ := Place.gathers_write (n := n) (w := .node f) (c := base r) t
  let m := n + Text.byteSize (Text.write t).toList
  let g : Opening := { offset := m, opener := '=' }
  let f' : Opening := { f with forwarded := f.forwarded + k }
  have hmark : Gathers m (.text (.node f') .none) ((Owner.node f).holding .none x (base r)) ['=']
      (.text (.nodeName f' g) .none)
      ((Owner.nodeName f' g).holding .none {} { base r with nodeType := x }) := by
    have hnext : Place.next {} m '=' (.text (.node f') .none)
        = ([.entered .nodeName m], .ok (.text (.nodeName f' g) .none)) := by
      rw [Place.next, Place.onText_of_mark (by simp [Owner.marks])]
      rfl
    exact .single hnext rfl
  obtain ⟨k', y, hname, hy⟩ := Place.gathers_write (n := m + Text.byteSize ['='])
    (w := .nodeName f' g) (c := { base r with nodeType := x }) s
  have hstands := Stands.nodeName (f := f') (g := { g with forwarded := g.forwarded + k' }) r hx hy
  have hread := htype.append (hmark.append hname)
  refine ⟨_, _, ?_, hstands⟩
  simp only [Segment.render, String.toList_append, List.append_assoc]
  exact hread

theorem gathers_step {s : Step} (r : Request) (hs : s.WellFormed) :
    ∃ p c, Gathers n (.text (.node f) .none) ((Owner.node f).holding .none {} (base r))
        s.render.toList p c
      ∧ Stands { r with address := r.address ++ [s] } p ['/', ':', '(', '>'] c := by
  have hletter : ∀ ch ∈ ['.', 't', 'y', 'p', 'e'], Place.Bare ch := by
    intro ch hch
    simp only [List.mem_cons, List.not_mem_nil, or_false] at hch
    rcases hch with rfl | rfl | rfl | rfl | rfl <;> exact ⟨by decide, by decide⟩
  cases s with
  | node s =>
    obtain ⟨t, name⟩ := s
    cases name with
    | none =>
      have ht : t ≠ "" := by simpa [Step.WellFormed] using hs
      exact gathers_unnamed r ht
    | some name => exact gathers_named r
  | parent => exact gathers_word r (fun ch hch => hletter ch (by simp_all [Step.render])) rfl
  | current => exact gathers_word r (fun ch hch => hletter ch (by simp_all [Step.render])) rfl
  | nodeType => exact gathers_word r (fun ch hch => hletter ch (by simp_all [Step.render])) rfl

theorem gathers_steps (ss : List Step) {s : Step} (r : Request) (hs : s.WellFormed)
    (hss : ∀ s ∈ ss, s.WellFormed) :
    ∃ p c, Gathers n (.text (.node f) .none) ((Owner.node f).holding .none {} (base r))
        ("/".intercalate ((s :: ss).map Step.render)).toList p c
      ∧ Stands { r with address := r.address ++ s :: ss } p ['/', ':', '(', '>'] c := by
  induction ss generalizing n f s r with
  | nil =>
    rw [List.map_cons, List.map_nil, String.intercalate_singleton]
    exact gathers_step r hs
  | cons s' ss ih =>
    obtain ⟨p, c, hstep, hstands⟩ := gathers_step (n := n) (f := f) r hs
    have hslash := hstands.part (n := n + Text.byteSize s.render.toList) '/' (by decide)
    obtain ⟨hs', hss'⟩ := List.forall_mem_cons.mp hss
    obtain ⟨q, d, hrest, hend⟩ := ih (n := n + Text.byteSize s.render.toList + Text.byteSize ['/'])
      { r with address := r.address ++ [s] } hs' hss'
    refine ⟨q, d, ?_, by simpa only [List.append_assoc, List.singleton_append] using hend⟩
    rw [List.map_cons, List.map_cons, String.intercalate_cons_cons, String.toList_append,
      String.toList_append, List.append_assoc]
    exact hstep.append (hslash.append hrest)

/-- The character may be the first of a step or a property. -/
def Begins (ch : Char) : Prop :=
  Text.isPlainBlank ch = false ∧ ch ∉ ['/', ':', '(', ')', '>']

theorem begins_of_bare {ch : Char} (h : Place.Bare ch) : Begins ch := by
  refine ⟨h.isPlainBlank, fun hch => ?_⟩
  simp only [List.mem_cons, List.not_mem_nil, or_false] at hch
  rcases hch with rfl | rfl | rfl | rfl | rfl <;> exact absurd h.2 (by decide)

theorem enquote_begins (s : String) : ∃ ch cs, (Text.enquote s).toList = ch :: cs ∧ Begins ch := by
  rw [Text.enquote, String.toList_ofList]
  exact ⟨'"', _, rfl, by decide, by decide⟩

theorem write_begins {s : String} (hs : s ≠ "") :
    ∃ ch cs, (Text.write s).toList = ch :: cs ∧ Begins ch := by
  unfold Text.write
  split
  · exact enquote_begins s
  · rename_i hq
    rcases hcs : s.toList with _ | ⟨ch, cs⟩
    · exact absurd (String.toList_eq_nil_iff.mp hcs) hs
    · exact ⟨ch, cs, rfl, begins_of_bare (Place.bare_of_not_needsQuotes hq ch (by simp [hcs]))⟩

theorem write_mark_begins (s t : String) :
    ∃ ch cs, (Text.write s ++ "=" ++ t).toList = ch :: cs ∧ Begins ch := by
  rw [String.toList_append, String.toList_append, List.append_assoc]
  by_cases hs : s = ""
  · subst hs
    exact ⟨'=', t.toList, rfl, by decide, by decide⟩
  · obtain ⟨ch, cs, hcs, hch⟩ := write_begins hs
    exact ⟨ch, cs ++ ("=".toList ++ t.toList), by rw [hcs]; rfl, hch⟩

theorem Step.render_begins {s : Step} (hs : s.WellFormed) :
    ∃ ch cs, s.render.toList = ch :: cs ∧ Begins ch := by
  cases s with
  | node s =>
    obtain ⟨t, name⟩ := s
    cases name with
    | none =>
      simp only [Step.render, Segment.render]
      split
      · exact enquote_begins t
      · exact write_begins (by simpa [Step.WellFormed] using hs)
    | some name => exact write_mark_begins t (Text.write name)
  | parent => exact ⟨'.', ['.'], rfl, by decide, by decide⟩
  | current => exact ⟨'.', [], rfl, by decide, by decide⟩
  | nodeType => exact ⟨'.', ['t', 'y', 'p', 'e'], rfl, by decide, by decide⟩

theorem Property.render_begins {p : Property} (hp : p.WellFormed) :
    ∃ ch cs, p.render.toList = ch :: cs ∧ Begins ch := by
  obtain ⟨name, value, n⟩ := p
  cases value with
  | none => exact write_begins (by simpa [Property.WellFormed] using hp)
  | some value => exact write_mark_begins name (Text.write value)

/-- The line of several parts begins as the first of them does. -/
theorem intercalate_begins {s : String} (sep : String) (ss : List String)
    (hs : ∃ ch cs, s.toList = ch :: cs ∧ Begins ch) :
    ∃ ch cs, (sep.intercalate (s :: ss)).toList = ch :: cs ∧ Begins ch := by
  obtain ⟨ch, cs, hcs, hch⟩ := hs
  cases ss with
  | nil => exact ⟨ch, cs, by rw [String.intercalate_singleton, hcs], hch⟩
  | cons s' ss =>
    rw [String.intercalate_cons_cons, String.toList_append, String.toList_append, hcs]
    exact ⟨ch, _, rfl, hch⟩

theorem gathers_of_start {ch : Char} {cs : List Char} {p : Place} {c : Collector} (r : Request)
    (hch : Begins ch)
    (h : Gathers n (.text (.node { offset := n, opener := ch }) .none)
      ((Owner.node { offset := n, opener := ch }).holding .none {} (base r)) (ch :: cs) p c) :
    Gathers n .start (base r) (ch :: cs) p c := by
  obtain ⟨hblank, hmarks⟩ := hch
  simp only [List.mem_cons, List.not_mem_nil, or_false, not_or] at hmarks
  have hblank' : Options.isBlank {} ch = false := hblank
  refine .opening (x := .entered .node n) ?_ h
  simp [Place.next, hblank', hmarks]

theorem gathers_address (r : Request) (hr : ∀ s ∈ r.address, s.WellFormed) :
    ∃ p chs c, Gathers 0 .start (base {}) r.renderAddress.toList p c
      ∧ Stands { absolute := r.absolute, address := r.address } p chs c
      ∧ ':' ∈ chs ∧ '(' ∈ chs ∧ (p = .start → r.absolute = false ∧ r.address = []) := by
  unfold Request.renderAddress
  rcases habs : r.absolute with _ | _
  · rcases hsteps : r.address with _ | ⟨s, ss⟩
    · exact ⟨.start, _, _, .refl, .start _, by decide, by decide, fun _ => ⟨rfl, rfl⟩⟩
    · rw [hsteps] at hr
      obtain ⟨hs, hss⟩ := List.forall_mem_cons.mp hr
      obtain ⟨ch, cs, hcs, hch⟩ := intercalate_begins "/" (ss.map Step.render)
        (Step.render_begins hs)
      obtain ⟨p, c, hread, hstands⟩ := gathers_steps (n := 0) (f := { offset := 0, opener := ch })
        ss {} hs hss
      rw [List.map_cons] at hread
      rw [hcs] at hread
      refine ⟨p, _, c, ?_, hstands, by decide, by decide, ?_⟩
      · simp only [Bool.false_eq_true, if_false, String.empty_append, List.map_cons, hcs]
        exact gathers_of_start {} hch hread
      · rintro rfl
        cases hstands.boundary
  · let f : Opening := { offset := 0, opener := '/' }
    have hslash : Gathers 0 .start (base {}) ['/'] (.text (.node f) .none)
        ((Owner.node f).holding .none {} (base { absolute := true })) := .single rfl rfl
    rcases hsteps : r.address with _ | ⟨s, ss⟩
    · have hempty : Field.Spells {} "" := Field.bare_spells ⟨by simp, by simp⟩
      exact ⟨_, _, _, hslash, Stands.node { absolute := true } hempty, by decide, by decide, nofun⟩
    · rw [hsteps] at hr
      obtain ⟨hs, hss⟩ := List.forall_mem_cons.mp hr
      obtain ⟨p, c, hread, hstands⟩ := gathers_steps (n := 0 + Text.byteSize ['/']) (f := f) ss
        { absolute := true } hs hss
      refine ⟨p, _, c, ?_, hstands, by decide, by decide, ?_⟩
      · rw [if_pos rfl, String.toList_append]
        exact hslash.append hread
      · rintro rfl
        cases hstands.boundary

end Address

section Raw

variable {P : Opening → Place} {C : Field → Collector} {n : Nat} {g : Opening}

theorem gathers_raw_rest {cs : List Char} {x : Field}
    (hchar : ∀ n g x, ∀ ch ∈ cs, (g.forwarded = 0 → Text.isPlainBlank ch = false) →
      Gathers n (P g) (C x) [ch] (P g.counted) (C (x.push ch false)))
    (hg : g.forwarded ≠ 0) :
    ∃ g', g'.forwarded ≠ 0
      ∧ Gathers n (P g) (C x) cs (P g') (C (cs.foldl (fun f ch => f.push ch false) x)) := by
  induction cs generalizing n g x with
  | nil => exact ⟨g, hg, .refl⟩
  | cons ch cs ih =>
    have hone := hchar n g x ch List.mem_cons_self fun h => absurd h hg
    obtain ⟨g', hg', hrest⟩ := ih (n := n + ch.utf8Size) (g := g.counted) (x := x.push ch false)
      (fun n g x d hd => hchar n g x d (List.mem_cons_of_mem ch hd)) (Nat.succ_ne_zero _)
    exact ⟨g', hg', hone.cons hrest⟩

/-- A text that is always written bare goes to its field as it is, if no blank leads it. -/
theorem gathers_raw {s : String} (hs : Text.Clean s)
    (hchar : ∀ n g x, ∀ ch ∈ s.toList, (g.forwarded = 0 → Text.isPlainBlank ch = false) →
      Gathers n (P g) (C x) [ch] (P g.counted) (C (x.push ch false))) :
    ∃ g', g'.forwarded ≠ 0 ∧ Gathers n (P g) (C {}) s.toList (P g') (C (.bare s)) := by
  obtain ⟨hne, hhead, -⟩ := hs
  rw [← Field.foldl_push_toList s]
  rcases hcs : s.toList with _ | ⟨ch, cs⟩
  · exact absurd (String.toList_eq_nil_iff.mp hcs) hne
  · rw [hcs] at hhead hchar
    have hone := hchar n g {} ch List.mem_cons_self fun _ => hhead ch rfl
    obtain ⟨g', hg', hrest⟩ := gathers_raw_rest (n := n + ch.utf8Size) (g := g.counted)
      (x := Field.push {} ch false)
      (fun n g x d hd => hchar n g x d (List.mem_cons_of_mem ch hd)) (Nat.succ_ne_zero _)
    exact ⟨g', hg', hone.cons hrest⟩

end Raw

theorem Opening.not_skips (f : Opening) {ch : Char}
    (h : f.forwarded = 0 → Text.isPlainBlank ch = false) :
    (Options.isBlank {} ch && decide (f.forwarded = 0)) = false := by
  by_cases hf : f.forwarded = 0
  · have hb : Options.isBlank {} ch = false := h hf
    simp [hb]
  · simp [hf]

theorem gathers_operation_char {n : Nat} {r : Request} {ch : Char} {f : Opening} {x : Field}
    (hblank : f.forwarded = 0 → Text.isPlainBlank ch = false) (hch : Grammar.OperationChar ch) :
    Gathers n (.operation f) { base r with stack := [.operationName], operation := x } [ch]
      (.operation f.counted)
      { base r with stack := [.operationName], operation := x.push ch false } := by
  have hskip := f.not_skips hblank
  simp only [Grammar.OperationChar, List.mem_cons, List.not_mem_nil, or_false, not_or] at hch
  have hnext : Place.next {} n ch (.operation f)
      = ([.character .operationName ch n], .ok (.operation f.counted)) := by
    simp [Place.next, Place.onOperation, hskip, hch]
  refine .single hnext ?_
  rw [List.foldl_cons, Collector.follow_character (by simp) rfl]
  rfl

theorem Stands.gathers_operation {n : Nat} {r : Request} {p : Place} {chs : List Char}
    {c : Collector} {s : String} (h : Stands r p chs c) (hchs : ':' ∈ chs)
    (hs : Text.IsOperation s) :
    ∃ q d, Gathers n p c (':' :: s.toList) q d
      ∧ Stands { r with operation := some s } q ['(', '>'] d ∧ q ≠ .start := by
  have hmark := h.part (n := n) ':' hchs
  obtain ⟨g, hg, hread⟩ := gathers_raw (P := .operation)
    (C := fun x => { base r with stack := [.operationName], operation := x })
    (n := n + Char.utf8Size ':') (g := { offset := n, opener := ':' }) hs.1
    fun m g x ch hch hblank => gathers_operation_char hblank (hs.2 ch hch)
  exact ⟨_, _, hmark.cons hread, .operation r hg (Field.bare_spells hs.1.2) hs.1.1, nofun⟩

/-- The collector that has gathered `r` and the properties `ps` of an open list. -/
def Collector.listing (r : Request) (ps : List Property) : Collector :=
  { base { r with properties := some ps } with stack := [.propertyList] }

open Collector (listing)

/-- The places in the list `f` where a property may end, with the states that are open inside of the
list. -/
inductive Place.Listed (f : Opening) : Place → List Label → Prop
  | list : Listed f (.list f) []
  | property (g : Opening) : Listed f (.text (.property f g) .none) [.property]
  | propertyValue (g v : Opening) :
    Listed f (.text (.propertyValue f g v) .none) [.propertyValue, .property]

/-- The collector has gathered `r` and the properties `ps` up to the place `p` in the list `f`. -/
structure Lists (r : Request) (ps : List Property) (f : Opening) (p : Place) (ls : List Label)
    (c : Collector) : Prop where
  ending : Place.Listed f p ls
  closes : c.closed ls = listing r ps

section Properties

variable {n : Nat} {r : Request} {ps : List Property} {f : Opening} {p : Place} {ls : List Label}
  {c : Collector}

theorem Lists.close (h : Lists r ps f p ls c) :
    Gathers n p c [')'] (.requestEnd { offset := n, opener := ')' })
      { base { r with properties := some ps } with stack := [.requestEnd] } := by
  have hnext : Place.next {} n ')' p = ((ls.map fun l => Event.leaving l n (some ')'))
      ++ [Event.leaving .propertyList n (some ')'), .entered .requestEnd n],
      .ok (.requestEnd { offset := n, opener := ')' })) := by
    cases h.ending with
    | list => rfl
    | property g =>
      rw [Place.next, Place.onText_of_mark (by simp [Owner.marks])]
      rfl
    | propertyValue g v =>
      rw [Place.next, Place.onText_of_mark (by simp [Owner.marks])]
      rfl
  refine .single hnext ?_
  rw [List.foldl_append, Collector.foldl_follow_leaving, h.closes]
  rfl

theorem Lists.comma (h : Lists r ps f p ls c) (hls : ls ≠ []) :
    Gathers n p c [','] (.text (.property f { offset := n, opener := ',' }) .none)
      ((Owner.property f { offset := n, opener := ',' }).holding .none {} (listing r ps)) := by
  have hnext : Place.next {} n ',' p = ((ls.map fun l => Event.leaving l n (some ','))
      ++ [Event.entered .property n],
      .ok (.text (.property f { offset := n, opener := ',' }) .none)) := by
    cases h.ending with
    | list => exact absurd rfl hls
    | property g =>
      rw [Place.next, Place.onText_of_mark (by simp [Owner.marks])]
      rfl
    | propertyValue g v =>
      rw [Place.next, Place.onText_of_mark (by simp [Owner.marks])]
      rfl
  refine .single hnext ?_
  rw [List.foldl_append, Collector.foldl_follow_leaving, h.closes]
  rfl

theorem Collector.pendingProperty_eq {c : Collector} {a : Property}
    (hname : c.textOf c.property.name = a.name) (hvalue : c.property.value.map c.textOf = a.value)
    (hplace : c.property.valueSeparator = a.valueSeparator) (ha : a.WellFormed) :
    c.pendingProperty = some a := by
  have hwritten : ¬ (decide (a.name = "") && a.value.isNone) = true := by
    simp only [Bool.and_eq_true, decide_eq_true_eq, Option.isNone_iff_eq_none, not_and]
    intro hn hv
    rcases ha with ha | ha
    · exact ha hn
    · exact ha hv
  rw [Collector.pendingProperty, hname, hvalue, hplace, Collector.writtenProperty,
    if_neg hwritten]

theorem closed_property {x : PendingProperty} {a : Property}
    (hname : x.name.finish Text.isPlainBlank = a.name)
    (hvalue : x.value.map (Field.finish Text.isPlainBlank) = a.value)
    (hplace : x.valueSeparator = a.valueSeparator) (ha : a.WellFormed) :
    ({ listing r ps with stack := [.property, .propertyList], property := x } :
      Collector).closed [.property] = listing r (ps ++ [a]) := by
  have hpending : ({ listing r ps with property := x } : Collector).pendingProperty = some a :=
    Collector.pendingProperty_eq hname hvalue hplace ha
  change Collector.plain (Collector.finishProperty
    { listing r ps with stack := [.propertyList], property := x }) = _
  rw [Collector.finishProperty_eq]
  exact congrArg (fun done : Option Property => listing r (ps ++ done.toList)) hpending

theorem gathers_property {g : Opening} {a : Property} (ha : a.WellFormed) :
    ∃ b p ls c, Property.unplaced b = a.unplaced ∧ ls ≠ []
      ∧ Gathers n (.text (.property f g) .none)
        ((Owner.property f g).holding .none {} (listing r ps)) a.render.toList p c
      ∧ Lists r (ps ++ [b]) f p ls c := by
  obtain ⟨name, value, m⟩ := a
  obtain ⟨k, x, hname, hx⟩ := Place.gathers_write (n := n) (w := .property f g) (c := listing r ps)
    name
  let g' : Opening := { g with forwarded := g.forwarded + k }
  cases value with
  | none =>
    exact ⟨{ name := name }, _, _, _, rfl, by simp, hname, .property g',
      closed_property hx.1 rfl rfl ha⟩
  | some value =>
    let i := n + Text.byteSize (Text.write name).toList
    let v : Opening := { offset := i, opener := '=' }
    let c : Collector :=
      { listing r ps with property := { name := x, valueSeparator := some i } }
    have hmark : Gathers i (.text (.property f g') .none)
        ((Owner.property f g).holding .none x (listing r ps)) ['=']
        (.text (.propertyValue f g' v) .none)
        ((Owner.propertyValue f g' v).holding .none {} c) := by
      have hnext : Place.next {} i '=' (.text (.property f g') .none)
          = ([.entered .propertyValue i], .ok (.text (.propertyValue f g' v) .none)) := by
        rw [Place.next, Place.onText_of_mark (by simp [Owner.marks])]
        rfl
      exact .single hnext rfl
    obtain ⟨k', y, hvalue, hy⟩ := Place.gathers_write (n := i + Text.byteSize ['='])
      (w := .propertyValue f g' v) (c := c) value
    have hread := hname.append (hmark.append hvalue)
    refine ⟨{ name := name, value := some value, valueSeparator := some i }, _, _,
      (Owner.propertyValue f g' v).holding .none y c, rfl, by simp, ?_,
      .propertyValue g' { v with forwarded := v.forwarded + k' }, ?_⟩
    · simp only [Property.render, String.toList_append, List.append_assoc]
      exact hread
    · exact closed_property hx.1 (congrArg some hy.1) rfl (.inr (by simp))

theorem gathers_properties (ps as : List Property) {g : Opening} {a : Property} (ha : a.WellFormed)
    (has : ∀ a ∈ as, Property.WellFormed a) :
    ∃ bs p ls c, bs.map Property.unplaced = (a :: as).map Property.unplaced
      ∧ Gathers n (.text (.property f g) .none)
        ((Owner.property f g).holding .none {} (listing r ps))
        (",".intercalate ((a :: as).map Property.render)).toList p c
      ∧ Lists r (ps ++ bs) f p ls c := by
  induction as generalizing n g a ps with
  | nil =>
    obtain ⟨b, p, ls, c, hb, -, hread, hlists⟩ := gathers_property (n := n) (r := r) (f := f)
      (g := g) ha
    refine ⟨[b], p, ls, c, by simp [hb], ?_, hlists⟩
    rw [List.map_cons, List.map_nil, String.intercalate_singleton]
    exact hread
  | cons a' as ih =>
    obtain ⟨b, p, ls, c, hb, hls, hread, hlists⟩ := gathers_property (n := n) (r := r) (f := f)
      (g := g) ha
    have hcomma := hlists.comma (n := n + Text.byteSize a.render.toList) hls
    obtain ⟨ha', has'⟩ := List.forall_mem_cons.mp has
    obtain ⟨bs, q, ls', d, hbs, hrest, hlists'⟩ :=
      ih (n := n + Text.byteSize a.render.toList + Text.byteSize [',']) (ps ++ [b]) ha' has'
    refine ⟨b :: bs, q, ls', d, by simp [hb, hbs], ?_, ?_⟩
    · rw [List.map_cons, List.map_cons, String.intercalate_cons_cons, String.toList_append,
        String.toList_append, List.append_assoc]
      exact hread.append (hcomma.append hrest)
    · rw [List.append_assoc, List.singleton_append] at hlists'
      exact hlists'

theorem gathers_of_list {ch : Char} {cs : List Char} (hch : Begins ch)
    (h : Gathers n (.text (.property f { offset := n, opener := ch }) .none)
      ((Owner.property f { offset := n, opener := ch }).holding .none {} (listing r ps)) (ch :: cs)
      p c) :
    Gathers n (.list f) (listing r ps) (ch :: cs) p c := by
  obtain ⟨hblank, hmarks⟩ := hch
  simp only [List.mem_cons, List.not_mem_nil, or_false, not_or] at hmarks
  have hblank' : Options.isBlank {} ch = false := hblank
  refine .opening (x := .entered .property n) ?_ h
  simp [Place.next, hblank', hmarks]

theorem Stands.gathers_list {chs : List Char} {as : List Property} (h : Stands r p chs c)
    (hchs : '(' ∈ chs) (has : ∀ a ∈ as, Property.WellFormed a) :
    ∃ bs q d, bs.map Property.unplaced = as.map Property.unplaced
      ∧ Gathers n p c ("(" ++ ",".intercalate (as.map Property.render) ++ ")").toList q d
      ∧ Stands { r with properties := some bs } q ['>'] d := by
  let f : Opening := { offset := n, opener := '(' }
  have hopen : Gathers n p c ['('] (.list f) (listing r []) := h.part '(' hchs
  rw [String.toList_append, String.toList_append, List.append_assoc]
  cases as with
  | nil =>
    have hlists : Lists r [] f (.list f) [] (listing r []) := ⟨.list, rfl⟩
    exact ⟨[], _, _, rfl, hopen.append hlists.close, .requestEnd _ _⟩
  | cons a as =>
    obtain ⟨ha, has⟩ := List.forall_mem_cons.mp has
    obtain ⟨ch, cs, hcs, hch⟩ := intercalate_begins "," (as.map Property.render)
      (Property.render_begins ha)
    obtain ⟨bs, q, ls, d, hbs, hread, hlists⟩ := gathers_properties (n := n + Text.byteSize ['('])
      (r := r) (f := f) (g := { offset := n + Text.byteSize ['('], opener := ch }) [] as ha has
    have hmap : (a :: as).map Property.render = a.render :: as.map Property.render := rfl
    rw [hmap, hcs] at hread ⊢
    exact ⟨bs, _, _, hbs, hopen.append ((gathers_of_list hch hread).append hlists.close),
      .requestEnd _ _⟩

end Properties

section Redirection

variable {n : Nat} {r : Request} {f g : Opening} {m : RedirectMode}

def Collector.targeting (r : Request) (m : RedirectMode) (x : Field) : Collector :=
  { base r with stack := [.outputTarget, .outputRedirect], mode := m, target := x }

open Collector (targeting)

theorem gathers_target_char {ch : Char} {x : Field}
    (hblank : g.forwarded = 0 → Text.isPlainBlank ch = false) :
    Gathers n (.target f g) (targeting r m x) [ch] (.target f g.counted)
      (targeting r m (x.push ch false)) := by
  have hskip := g.not_skips hblank
  have hnext : Place.next {} n ch (.target f g)
      = ([.character .outputTarget ch n], .ok (.target f g.counted)) := by
    simp [Place.next, Place.onTarget, hskip]
  refine .single hnext ?_
  rw [List.foldl_cons, Collector.follow_character (by simp) rfl]
  rfl

theorem gathers_mode {p : Place} {chs : List Char} {c : Collector} (hp : Boundary p chs)
    (hc : c.closed p.labels = base r) :
    ∃ f, Gathers n p c m.render.toList (.redirect f)
      { base r with stack := [.outputRedirect], mode := m } := by
  have hmark := Place.gathers_part (n := n) hp hc '>' hp.mem
  let f : Opening := { offset := n, opener := '>' }
  cases m with
  | overwrite => exact ⟨f, hmark⟩
  | append =>
    have hagain : Gathers (n + Char.utf8Size '>') (.redirect f)
        { base r with stack := [.outputRedirect], mode := .overwrite } ['>'] (.redirect f.counted)
        { base r with stack := [.outputRedirect], mode := .append } := .single rfl rfl
    exact ⟨f.counted, hmark.cons hagain⟩

theorem gathers_redirect {p : Place} {chs : List Char} {c : Collector} {d : Redirect}
    (hp : Boundary p chs) (hc : c.closed p.labels = base r) (hd : Text.Clean d.target) :
    ∃ f g, g.forwarded ≠ 0 ∧ Gathers n p c d.render.toList (.target f g)
      (targeting r d.mode (.bare d.target)) := by
  obtain ⟨f, hmode⟩ := gathers_mode (n := n) (m := d.mode) hp hc
  let i := n + Text.byteSize d.mode.render.toList
  have hblank : Gathers i (.redirect f) { base r with stack := [.outputRedirect], mode := d.mode }
      [' '] (.target f { offset := i, opener := ' ' }) (targeting r d.mode {}) := .single rfl rfl
  obtain ⟨g, hg, hread⟩ := gathers_raw (P := .target f) (C := targeting r d.mode)
    (n := i + Text.byteSize [' ']) (g := { offset := i, opener := ' ' }) hd
    fun m g x ch _ hblank => gathers_target_char hblank
  refine ⟨f, g, hg, ?_⟩
  rw [Redirect.render, String.toList_append, String.toList_append, List.append_assoc]
  exact hmode.append (hblank.append hread)

end Redirection

/-! ## The line -/

section Line

variable {r : Request}

theorem gathers_head (hr : r.WellFormed) :
    ∃ p chs c, Gathers 0 .start (base {}) (r.renderAddress ++ r.renderOperation).toList p c
      ∧ Stands { absolute := r.absolute, address := r.address, operation := r.operation } p chs c
      ∧ '(' ∈ chs
      ∧ (p = .start → r.absolute = false ∧ r.address = [] ∧ r.operation = none) := by
  obtain ⟨p, chs, c, hread, hstands, hcolon, hparen, hstart⟩ := gathers_address r hr.1
  rw [String.toList_append]
  unfold Request.renderOperation
  rcases hop : r.operation with _ | s
  · refine ⟨p, chs, c, ?_, hstands, hparen, fun h => ⟨(hstart h).1, (hstart h).2, rfl⟩⟩
    simpa using hread
  · obtain ⟨q, d, hread', hstands', hne⟩ := hstands.gathers_operation
      (n := 0 + Text.byteSize r.renderAddress.toList) hcolon (hr.2.1 s hop)
    refine ⟨q, _, d, ?_, hstands', by decide, fun h => absurd h hne⟩
    rw [String.toList_append]
    exact hread.append hread'

theorem gathers_front (hr : r.WellFormed) :
    ∃ bs p chs c, bs.map (·.map Property.unplaced) = r.properties.map (·.map Property.unplaced)
      ∧ Gathers 0 .start (base {})
        (r.renderAddress ++ r.renderOperation ++ r.renderProperties).toList p c
      ∧ Stands { absolute := r.absolute, address := r.address, operation := r.operation
                 properties := bs } p chs c
      ∧ (r.isBare = false → p ≠ .start) := by
  obtain ⟨p, chs, c, hread, hstands, hparen, hstart⟩ := gathers_head hr
  rw [String.toList_append]
  unfold Request.renderProperties
  rcases hps : r.properties with _ | as
  · refine ⟨none, p, chs, c, rfl, ?_, hstands, fun hbare h => ?_⟩
    · simpa using hread
    · obtain ⟨h₁, h₂, h₃⟩ := hstart h
      simp [Request.isBare, h₁, h₂, h₃, hps] at hbare
  · obtain ⟨bs, q, d, hbs, hread', hstands'⟩ := hstands.gathers_list
      (n := 0 + Text.byteSize (r.renderAddress ++ r.renderOperation).toList) hparen
      (hr.2.2.1 as hps)
    refine ⟨some bs, q, _, d, by simp [hbs], hread.append hread', hstands', fun _ h => ?_⟩
    subst h
    cases hstands'.boundary

/-- A line that is read to the place `p`, where it may end, is the request that the collector
then holds. -/
theorem Request.parse_of_gathers {line : String} {p : Place} {c : Collector} {es : List Event}
    (h : Gathers 0 .start (base {}) line.toList p c)
    (hfinish : p.finish {} (0 + Text.byteSize line.toList) = (es, none)) :
    Request.parse {} line = .ok (es.foldl Collector.follow c).request := by
  obtain ⟨es', hfeed, rfl⟩ := h
  have hread : Place.read {} 0 line.toList .start = (es' ++ es, none) := by
    rw [Place.read, hfeed]
    simp only [Place.delay, hfinish]
  rw [Request.parse_eq_ok_iff, hread]
  refine ⟨rfl, ?_⟩
  rw [← List.foldl_append]
  have hplain := congrArg Collector.request (Collector.plain_foldl_step (base {}) (es' ++ es))
  exact hplain

/-- A redirection set off by a blank from the parts before it. -/
theorem gathers_renderRedirect {r₀ : Request} {p : Place} {chs : List Char} {c : Collector}
    {d : Redirect} {n : Nat} (hstands : Stands r₀ p chs c) (hbare : r.isBare = false → p ≠ .start)
    (hredirect : r.redirect = some d) (hd : Text.Clean d.target) :
    ∃ f g, g.forwarded ≠ 0 ∧ Gathers n p c r.renderRedirect.toList (.target f g)
      (Collector.targeting r₀ d.mode (.bare d.target)) := by
  simp only [Request.renderRedirect, hredirect]
  rcases hb : r.isBare with _ | _
  · obtain ⟨q, chs', e, hblank, hq, he⟩ := hstands.blank (hbare hb) n
    obtain ⟨f, g, hg, hread⟩ := gathers_redirect (n := n + Text.byteSize [' ']) hq he hd
    refine ⟨f, g, hg, ?_⟩
    rw [if_neg (by simp), String.toList_append]
    exact hblank.append hread
  · rw [if_pos rfl, String.empty_append]
    exact gathers_redirect hstands.boundary hstands.closes hd

/-- A well-formed request is read from its line, up to the places of its properties. -/
theorem Request.parse_render (hr : r.WellFormed) :
    ∃ r', Request.parse {} r.render = .ok r' ∧ r'.unplaced = r.unplaced := by
  obtain ⟨bs, p, chs, c, hbs, hread, hstands, hbare⟩ := gathers_front hr
  rcases hredirect : r.redirect with _ | d
  · refine ⟨_, Request.parse_of_gathers (p := p) (c := c) ?_
      (Place.finish_boundary hstands.boundary), ?_⟩
    · simp only [Request.render, Request.renderRedirect, hredirect, String.append_empty]
      exact hread
    · rw [Collector.foldl_follow_leaving, hstands.closes]
      simp only [Collector.base, Request.unplaced, hbs, hredirect]
  · have hd := hr.2.2.2 d hredirect
    obtain ⟨f, g, hg, hread'⟩ := gathers_renderRedirect
      (n := 0 + Text.byteSize (r.renderAddress ++ r.renderOperation ++ r.renderProperties).toList)
      hstands hbare hredirect hd
    have hfinish : ∀ n, Place.finish {} n (.target f g)
        = ([.leaving .outputTarget n none, .leaving .outputRedirect n none], none) := by
      intro n
      simp only [Place.finish, if_neg hg]
    have hall := hread.append hread'
    rw [← String.toList_append] at hall
    refine ⟨_, Request.parse_of_gathers hall (hfinish _), ?_⟩
    have htarget : (Field.bare d.target).finish Text.isPlainBlank = d.target :=
      (Field.bare_spells hd.2).1
    change Request.unplaced
      { absolute := r.absolute, address := r.address, operation := r.operation, properties := bs
        redirect := some ⟨d.mode, (Field.bare d.target).finish Text.isPlainBlank⟩ } = _
    simp only [Request.unplaced, htarget, hbs, hredirect]

end Line

theorem Property.render_unplaced (p : Property) : p.unplaced.render = p.render := rfl

theorem Request.render_unplaced (r : Request) : r.unplaced.render = r.render := by
  have hlist : r.unplaced.renderProperties = r.renderProperties := by
    unfold Request.renderProperties Request.unplaced
    rcases r.properties with _ | ps
    · rfl
    · simp [Function.comp_def, Property.render_unplaced]
  have hbare : r.unplaced.isBare = r.isBare := by
    simp [Request.isBare, Request.unplaced]
  have hredirect : r.unplaced.renderRedirect = r.renderRedirect := by
    simp only [Request.renderRedirect, hbare]
    rfl
  simp only [Request.render, hlist, hredirect]
  rfl

theorem Request.wellFormed_unplaced {r : Request} : r.unplaced.WellFormed ↔ r.WellFormed := by
  have hlist : (∀ ps ∈ r.unplaced.properties, ∀ p ∈ ps, Property.WellFormed p)
      ↔ ∀ ps ∈ r.properties, ∀ p ∈ ps, Property.WellFormed p := by
    unfold Request.unplaced
    rcases r.properties with _ | ps
    · simp
    · simp [Property.WellFormed, Property.unplaced]
  exact and_congr Iff.rfl (and_congr Iff.rfl (and_congr hlist Iff.rfl))

/-- The requests that lines give are the well-formed ones, and these are the requests that are read
back from the lines they are written as. A request that was read back is written as the same line,
so there its offsets are right as well. -/
theorem parse_render_iff_wellFormed :
    (∀ (o : Options) (line : String) (r : Request), Request.parse o line = .ok r → r.WellFormed)
    ∧ (∀ r : Request, r.WellFormed ↔
        ∃ r', Request.parse {} r.render = .ok r' ∧ r'.unplaced = r.unplaced)
    ∧ ∀ r : Request, r.WellFormed →
        ∃ r', Request.parse {} r.render = .ok r' ∧ r'.unplaced = r.unplaced
          ∧ r'.render = r.render ∧ Request.parse {} r'.render = .ok r' := by
  refine ⟨fun o line r h => Request.wellFormed_of_parse h, fun r => ⟨Request.parse_render, ?_⟩,
    fun r hr => ?_⟩
  · rintro ⟨r', hparse, heq⟩
    have hr' := Request.wellFormed_of_parse hparse
    rw [← Request.wellFormed_unplaced, ← heq, Request.wellFormed_unplaced]
    exact hr'
  · obtain ⟨r', hparse, heq⟩ := Request.parse_render hr
    have hrender : r'.render = r.render := by
      rw [← Request.render_unplaced r', heq, Request.render_unplaced]
    exact ⟨r', hparse, heq, hrender, by rw [hrender, hparse]⟩

/-- A navigation word as a type, an empty name, a value with marks and an offset of its own. -/
theorem parse_render_awkward_texts :
    let r : Request :=
      { absolute := true
        address := [.node ⟨"..", none⟩, .node ⟨"", some ""⟩, .parent]
        operation := some "read attribute"
        properties := some [⟨"a \"b\\", some "[x,(", some 99⟩, ⟨"", some "", none⟩]
        redirect := some ⟨.append, "out > file"⟩ }
    r.WellFormed ∧ ∃ r', Request.parse {} r.render = .ok r' ∧ r'.unplaced = r.unplaced
      ∧ r'.render = r.render ∧ Request.parse {} r'.render = .ok r' :=
  ⟨by decide +kernel, parse_render_iff_wellFormed.2.2 _ (by decide +kernel)⟩

end RequestLine
