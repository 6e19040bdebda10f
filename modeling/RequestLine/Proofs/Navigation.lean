import RequestLine.Proofs.Conservation
import RequestLine.Proofs.Parts
import RequestLine.Proofs.Shifting
import RequestLine.Request.Resolve

/-!
# Navigation in two steps

A slash behind a line that has only an address ends its last segment, as the end of the line would,
and begins a new one (`Place.slash_of_finish`). Whatever can be a line is then read behind the slash
as it is read alone (`Place.read_behind_slash`), so the two lines joined by a slash address the node
that the second line addresses when seen from the node of the first (`navigation_composes`).
-/

namespace RequestLine

namespace Draft

variable {o : Options} {r : Request}

/-- A segment in which nothing was written leaves nothing behind. -/
theorem follow_leaving_unwritten (n : Nat) (x : Option Char) :
    ((segment [] none).onto o [.node] r).follow (.leaving .node n x) = nothing.onto o [] r := by
  have hinto : (segment [] none).into o r = r := by
    simp [into, text, Text.trimLoose, Collector.stepOf]
  have hleave : ((segment [] none).onto o [.node] r).follow (.leaving .node n x)
      = nothing.onto o [] ((segment [] none).into o r) :=
    follow_leaving_part (d := segment [] none) (by simp [part])
  rwa [hinto] at hleave

/-- A draft without a place in the line is the same behind an address. -/
theorem onto_behind (hr : r.IsAddress) (n : Nat) (st : List Label) {d : Draft}
    (hd : d.label ≠ .propertyValue) : (d.onto o st {}).behind r n = d.onto o st r := by
  rcases d with _ | _ | _ | ⟨_, _ | _⟩ | _
  case property.some => exact absurd rfl hd
  all_goals
    simp only [Collector.behind, onto, Request.behind_empty hr]
    rfl

end Draft

namespace Place

variable {o : Options} {es : List Event} {n : Nat} {p q : Place} {r : Request}

theorem ne_start_of_mem {cs : List Char} {ch : Char} (h : feed o n cs .start = (es, .ok q))
    (hmem : ch ∈ cs) (hch : o.isBlank ch = false) : q ≠ .start := by
  induction cs generalizing n es with
  | nil => cases hmem
  | cons c cs ih =>
    rcases hblank : o.isBlank c with _ | _
    · exact ne_start_of_feed_cons h hblank
    · have hne : ch ≠ c := by
        rintro rfl
        rw [hblank] at hch
        cases hch
      simp only [feed, next, hblank, if_true] at h
      exact ih h (List.mem_of_ne_of_mem hne hmem)

/-- The slash that ends a segment begins an empty one. -/
theorem fold_slash {type : List (Char × Bool)} {name : Option (List (Char × Bool))}
    (h : Kept o es [.node] r (.segment type name)) (hr : r.IsAddress) (n : Nat) :
    (es ++ [Event.leaving .node n (some '/'), .entered .node n]).foldl Collector.follow
        { options := o }
      = (Draft.segment [] none).onto o [.node] ((Draft.segment type name).into o r) := by
  have hdone := Kept.finish (d := .segment type name) h hr (by simp [Draft.part]) n (some '/')
  have hnext : Kept o (es ++ [Event.leaving .node n (some '/')] ++ [Event.entered .node n]) [.node]
      ((Draft.segment type name).into o r) (.segment [] none) := hdone.quiet rfl rfl rfl rfl
  have hfold := hnext.fold
  rwa [List.append_assoc] at hfold

/-- At the end of a line that has only an address, a slash closes what the end of the line closes,
and opens the next segment. No operation is open there, since one that may end has a name. -/
theorem slash_of_finish (h : p.Keeps o es) (hne : p ≠ .start) (hok : (p.finish o n).2 = none)
    (hr : ((es ++ (p.finish o n).1).foldl Collector.follow { options := o }).request = r)
    (haddress : r.IsAddress) :
    ∃ es', p.next o n '/' = (es', .ok (.text (.node { offset := n, opener := '/' }) .none))
      ∧ (es ++ es').foldl Collector.follow { options := o }
        = (Draft.segment [] none).onto o [.node] r := by
  obtain ⟨r₀, d, hkept, hholds⟩ := h
  obtain rfl := (settles_finish hkept hholds hok).request.symm.trans hr
  cases p with
  | start => exact absurd rfl hne
  | text w s =>
    obtain ⟨hlabel, hfits⟩ := hholds
    cases s with
    | none =>
      cases w with
      | node f =>
        obtain ⟨type, rfl⟩ := Draft.isOf_of_label hlabel
        refine ⟨[.leaving .node n (some '/'), .entered .node n], ?_, fold_slash hkept hfits n⟩
        rw [next, onText_of_mark (by simp [Owner.marks])]
        simp [onMark, endSegment]
      | nodeName f g =>
        obtain ⟨type, name, rfl⟩ := Draft.isOf_of_label hlabel
        refine ⟨[.leaving .nodeName n (some '/'), .leaving .node n (some '/'), .entered .node n],
          ?_, ?_⟩
        · rw [next, onText_of_mark (by simp [Owner.marks])]
          simp [onMark, endSegment, after]
        · have hleft : Kept o (es ++ [Event.leaving .nodeName n (some '/')]) [.node] r₀
              (.segment type (some name)) := hkept.quiet rfl rfl rfl rfl
          have hfold := fold_slash hleft hfits n
          rwa [List.append_assoc] at hfold
      | property f g => cases hok
      | propertyValue f g v => cases hok
    | escape e => cases hok
    | quotes x => cases hok
    | quotesEscape x e => cases hok
  | literal f g v b k depth =>
    simp only [finish] at hok
    split at hok <;> cases hok
  | operation f =>
    obtain ⟨hlabel, hfits, hlength⟩ := hholds
    obtain ⟨name, rfl⟩ := Draft.isOf_of_label hlabel
    have hsome : f.forwarded ≠ 0 := by
      intro hzero
      simp [finish, hzero] at hok
    have hname : name.isEmpty = false := by
      cases name with
      | nil => exact absurd hlength.symm hsome
      | cons c cs => rfl
    simp [Request.IsAddress, Draft.into, hname] at haddress
  | list f => cases hok
  | requestEnd f =>
    obtain ⟨rfl, hproperties, -⟩ := hholds
    exact absurd haddress.2.1 hproperties
  | redirect f => cases hok
  | target f g =>
    obtain ⟨mode, target, rfl⟩ := Draft.isOf_of_label hholds.1
    simp [Request.IsAddress, Draft.into] at haddress

/-- A mark that begins a part does the same in an empty segment, which it closes. -/
theorem next_empty_segment {f : Opening} {ch : Char} (hch : ch ∈ [':', '(', '>']) :
    next o n ch (text (.node f) .none)
      = after [.leaving .node n (some ch)] (next o n ch .start) := by
  have hmark : ch ∈ (Owner.node f).marks := by
    simp only [List.mem_cons, List.not_mem_nil, or_false] at hch
    rcases hch with rfl | rfl | rfl <;> simp [Owner.marks]
  have hblank := o.isBlank_of_isMark (Owner.isMark_of_mem_marks hmark)
  change onText o n ch (.node f) = _
  rw [onText_of_mark hmark]
  simp only [List.mem_cons, List.not_mem_nil, or_false] at hch
  rcases hch with rfl | rfl | rfl <;> simp [onMark, endSegment, next, after, hblank]

/-- What is a line of its own is read behind a slash as it is read alone. -/
theorem read_behind_slash {f : Opening} (hf : f.forwarded = 0) (hr : r.IsAddress) {d : Nat}
    {cs : List Char} (hok : (start.read o n cs).2 = none)
    (hroot : ∀ e ∈ (start.read o n cs).1, e.isRoot = false) :
    ((text (.node f) .none).read o (n + d) cs).2 = none
      ∧ (((text (.node f) .none).read o (n + d) cs).1.foldl Collector.follow
          ((Draft.segment [] none).onto o [.node] r)).request
        = r.behind d ((start.read o n cs).1.foldl Collector.follow { options := o }).request := by
  induction cs generalizing n with
  | nil =>
    refine ⟨rfl, ?_⟩
    have hleave := Draft.follow_leaving_unwritten (o := o) (r := r) (n + d) none
    exact (congrArg Collector.request hleave).trans (Request.behind_empty hr d).symm
  | cons ch cs ih =>
    rcases hblank : o.isBlank ch with _ | _
    · have hslash : ch ≠ '/' := by
        rintro rfl
        have hmem := (mem_read_start_iff (n := n) hblank cs (e := .character .initial '/' n)
          rfl).mpr ⟨rfl, rfl⟩
        exact absurd (hroot _ hmem) (by simp [Event.isRoot])
      by_cases hpart : ch ∈ [':', '(', '>']
      · obtain ⟨hevents, haccepts⟩ := read_shift (o := o) (n := n) (d := d) .start (ch :: cs)
        have hnothing : (Draft.nothing.onto o [] {}).behind r d = Draft.nothing.onto o [] r :=
          Draft.onto_behind hr d [] (by simp [Draft.label])
        rw [read_opening (next_empty_segment hpart)]
        refine ⟨haccepts.mpr hok, ?_⟩
        simp only [delay, List.singleton_append, List.foldl_cons, hevents,
          Draft.follow_leaving_unwritten, ← hnothing, Collector.foldl_follow_behind]
        rfl
      · have hstart : next o n ch .start = after [.entered .node n]
            (next o n ch (text (.node { offset := n, opener := ch }) .none)) := by
          simp only [List.mem_cons, List.not_mem_nil, or_false, not_or] at hpart
          simp [next, hblank, hslash, hpart]
        have halike : Alike (text (.node { offset := n, opener := ch }) .none)
            (text (.node f) .none) := .text (.node hf) .none
        rw [read_opening hstart] at hok ⊢
        obtain ⟨hevents, haccepts⟩ := read_shift (o := o) (n := n) (d := d) halike (ch :: cs)
        refine ⟨haccepts.mpr hok, ?_⟩
        rw [hevents, ← Draft.onto_behind hr d [.node] (by simp [Draft.label]),
          Collector.foldl_follow_behind]
        rfl
    · have hstart : next o n ch .start = ([], .ok .start) := by simp [next, hblank]
      have hnode : next o (n + d) ch (text (.node f) .none)
          = ([], .ok (text (.node f) .none)) := by
        simp [next, onText, hblank, Owner.skipsBlanks, hf]
      have hsize : n + d + ch.utf8Size = n + ch.utf8Size + d := by omega
      rw [read_cons hstart] at hok hroot ⊢
      rw [read_cons hnode, hsize]
      exact ih hok hroot

/-- A line that has only an address, with a slash behind it. -/
theorem feed_slash {cs : List Char} {ch : Char} (hok : (start.read o 0 cs).2 = none)
    (hmem : ch ∈ cs) (hch : o.isBlank ch = false)
    (hr : ((start.read o 0 cs).1.foldl Collector.follow { options := o }).request = r)
    (haddress : r.IsAddress) :
    ∃ es f, start.feed o 0 (cs ++ ['/']) = (es, .ok (text (.node f) .none)) ∧ f.forwarded = 0
      ∧ es.foldl Collector.follow { options := o } = (Draft.segment [] none).onto o [.node] r := by
  obtain ⟨es, q, hfeed, hread⟩ := exists_feed_of_read hok
  rw [hread] at hok hr
  have hkeeps : q.Keeps o ([] ++ es) := keeps_feed (keeps_start o) hfeed
  obtain ⟨es', hnext, hfold⟩ :=
    slash_of_finish hkeeps (ne_start_of_mem hfeed hmem hch) hok hr haddress
  refine ⟨es ++ es', { offset := 0 + Text.byteSize cs, opener := '/' }, ?_, rfl, hfold⟩
  rw [feed_append hfeed]
  simp only [feed, hnext, after, List.append_nil]

end Place

theorem Request.not_isRoot_of_relative {o : Options} {es : List Event}
    (h : (es.foldl Collector.follow { options := o }).request.absolute = false) :
    ∀ e ∈ es, e.isRoot = false := by
  rw [Collector.foldl_follow_start] at h
  have habsolute := Collector.foldl_step_absolute { options := o } es
  change (es.foldl Collector.step { options := o }).request.absolute = false at h
  rw [h, Bool.false_or] at habsolute
  simpa using habsolute.symm

theorem Request.resolve_behind {r q : Request} (hq : q.absolute = false) (d : Nat)
    (current : List Segment) :
    (r.behind d q).resolve current = q.resolve (r.resolve current) := by
  simp [resolve, behind, hq, List.foldl_append]

/-- Going to a node and from there to another is going there in one line. -/
theorem navigation_composes {o : Options} {p q : String} {rp rq : Request}
    (hp : Request.parse o p = .ok rp) (hblank : ∃ ch ∈ p.toList, o.isBlank ch = false)
    (haddress : rp.operation = none ∧ rp.properties = none ∧ rp.redirect = none)
    (hq : Request.parse o q = .ok rq) (hrelative : rq.absolute = false) :
    ∃ r, Request.parse o (p ++ "/" ++ q) = .ok r
      ∧ r.absolute = rp.absolute ∧ r.address = rp.address ++ rq.address
      ∧ r.operation = rq.operation ∧ r.redirect = rq.redirect
      ∧ r.properties = rq.properties.map (List.map (Property.shift (p.utf8ByteSize + 1)))
      ∧ ∀ current, r.resolve current = rq.resolve (rp.resolve current) := by
  obtain ⟨ch, hmem, hch⟩ := hblank
  obtain ⟨hpok, hprequest⟩ := Request.parse_eq_ok_iff_follow.mp hp
  obtain ⟨hqok, rfl⟩ := Request.parse_eq_ok_iff_follow.mp hq
  obtain ⟨es, f, hfeed, hf, hfold⟩ := Place.feed_slash hpok hmem hch hprequest haddress
  have hsize : 0 + Text.byteSize (p.toList ++ ['/']) = 0 + (p.utf8ByteSize + 1) := by
    rw [Text.byteSize_append, Text.byteSize_toList]
    rfl
  obtain ⟨hok, hrequest⟩ := Place.read_behind_slash (d := p.utf8ByteSize + 1) hf haddress hqok
    (Request.not_isRoot_of_relative hrelative)
  have hline : (p ++ "/" ++ q).toList = p.toList ++ ['/'] ++ q.toList := by simp
  have hread := Place.read_append hfeed q.toList
  rw [hsize] at hread
  refine ⟨rp.behind (p.utf8ByteSize + 1) _, Request.parse_eq_ok_iff_follow.mpr ⟨?_, ?_⟩, ?_, rfl,
    rfl, rfl, rfl, Request.resolve_behind hrelative _⟩
  · rw [hline, hread]
    exact hok
  · rw [hline, hread, Place.delay, List.foldl_append, hfold]
    exact hrequest
  · simp [Request.behind, hrelative]

/-- The bare step behind the slash names the node before it, which has no name. -/
theorem navigation_names_node :
    let rp : Request := { address := [.node ⟨"a", some "/"⟩, .node ⟨"b", none⟩] }
    let rq : Request :=
      { address := [.node ⟨"c", none⟩], operation := some "op"
        properties := some [⟨"x", some "1", some 6⟩] }
    Request.parse {} "a=\"/\"/b" = .ok rp ∧ Request.parse {} "c:op(x=1)" = .ok rq
      ∧ ∃ r, Request.parse {} ("a=\"/\"/b" ++ "/" ++ "c:op(x=1)") = .ok r
        ∧ r.properties = some [⟨"x", some "1", some 14⟩]
        ∧ r.resolve [] = [⟨"a", some "/"⟩, ⟨"b", some "c"⟩] := by
  intro rp rq
  have hp : Request.parse {} "a=\"/\"/b" = .ok rp := by decide +kernel
  have hq : Request.parse {} "c:op(x=1)" = .ok rq := by decide +kernel
  obtain ⟨r, hparse, -, -, -, -, hproperties, hresolve⟩ :=
    navigation_composes hp ⟨'a', by decide +kernel, by decide⟩ ⟨rfl, rfl, rfl⟩ hq rfl
  exact ⟨hp, hq, r, hparse, hproperties.trans (by decide +kernel),
    (hresolve []).trans (by decide)⟩

end RequestLine
