import RequestLine.Proofs.Completeness
import RequestLine.Proofs.Nesting

/-!
# Several lines in one collector

A collector is not reset between lines, so what one line leaves behind is there when the next one
begins. After an accepted line that is the request, the mode of its redirection and what the
collector knows about the end of the line (`Place.settles_read`). The events of the next line do on
top of an old request what they do in a fresh collector (`Collector.Atop.follow`): the parts of the
address add up, every other part is set anew by the line that has it, and the old mode is not asked
for. So the collected request is the one that the requests of the lines merge to
(`collector_has_no_residue`).
-/

namespace RequestLine

namespace Request

/-- The request `q` read on top of the request `r`. -/
def merge (r q : Request) : Request where
  absolute := r.absolute || q.absolute
  address := r.address ++ q.address
  operation := q.operation.or r.operation
  properties := q.properties.or r.properties
  redirect := q.redirect.or r.redirect

/-- The requests as one: absolute if one of them is, with all their steps, and of the other parts
the last one that is there. -/
def merged (rs : List Request) : Request where
  absolute := rs.any (·.absolute)
  address := rs.flatMap (·.address)
  operation := rs.reverse.findSome? (·.operation)
  properties := rs.reverse.findSome? (·.properties)
  redirect := rs.reverse.findSome? (·.redirect)

theorem empty_merge (r : Request) : merge {} r = r := by
  simp [merge]

theorem merge_empty (r : Request) : r.merge {} = r := by
  simp [merge]

theorem merge_assoc (r q s : Request) : (r.merge q).merge s = r.merge (q.merge s) := by
  simp [merge, Bool.or_assoc, Option.or_assoc]

theorem merged_cons (q : Request) (rs : List Request) :
    merged (q :: rs) = q.merge (merged rs) := by
  simp [merged, merge, List.findSome?_append]

theorem foldl_merge (r : Request) (rs : List Request) :
    rs.foldl merge r = r.merge (merged rs) := by
  induction rs generalizing r with
  | nil => exact (merge_empty r).symm
  | cons q rs ih => rw [List.foldl_cons, ih, merge_assoc, merged_cons]

/-- If the operations have names, then the one that is left has. -/
theorem operation_merge_ne {r q : Request} (hr : r.operation ≠ some "")
    (hq : q.operation ≠ some "") : (r.merge q).operation ≠ some "" := by
  intro h
  rcases Option.or_eq_some_iff.mp h with h | ⟨-, h⟩
  · exact hq h
  · exact hr h

end Request

namespace Collector

/-- The collector has nothing in hand but a request. -/
structure AtRest (c : Collector) : Prop where
  stack : c.stack = []
  nodeType : c.nodeType = {}
  nodeName : c.nodeName = none
  operation : c.operation = {}
  property : c.property = {}
  target : c.target = {}

/-- The collector `d` is `c` with its request on top of `r`. As long as no redirection is open it
may remember the mode of an old one. -/
def Atop (r : Request) (c d : Collector) : Prop :=
  ∃ mode, d = { c with request := r.merge c.request, mode }
    ∧ (.outputRedirect ∈ c.stack → mode = c.mode)

variable {r : Request} {c d : Collector} {e : Event} {es : List Event} {st : List Label}

theorem nest_stack (h : e.nest? .initial c.stack = some st) : (c.follow e).stack = st := by
  cases e with
  | entered l n =>
    obtain rfl := Option.some.inj h
    exact (c.enter_calm l n).2
  | character l ch n =>
    simp only [Event.nest?] at h
    split at h
    · obtain rfl := Option.some.inj h
      exact c.take_stack l ch
    · cases h
  | leaving l n x =>
    change (c.leave l x).stack = st
    rw [leave_stack, Event.eq_cons_of_leaving h, List.tail_cons]

theorem Atop.enter (h : Atop r c d) (l : Label) (n : Nat) :
    Atop r (c.follow (.entered l n)) (d.follow (.entered l n)) := by
  obtain ⟨mode, rfl, hmode⟩ := h
  cases l
  case outputRedirect => exact ⟨.overwrite, rfl, fun _ => rfl⟩
  all_goals
    refine ⟨mode, rfl, fun hmem => hmode ?_⟩
    exact (List.mem_cons.mp hmem).resolve_left (by simp)

theorem Atop.take (h : Atop r c d) (l : Label) (ch : Char) (n : Nat) :
    Atop r (c.follow (.character l ch n)) (d.follow (.character l ch n)) := by
  obtain ⟨mode, rfl, hmode⟩ := h
  change Atop r (c.take l ch).plain (Collector.take _ l ch).plain
  have hseen : seen { c with request := r.merge c.request, mode } ch
      = { c.seen ch with request := r.merge (c.seen ch).request, mode } := by
    simp only [seen]
    split <;> rfl
  have hmode : .outputRedirect ∈ (c.seen ch).stack → mode = (c.seen ch).mode := by
    simp only [seen]
    split <;> exact hmode
  rw [take_eq, take_eq, hseen]
  generalize c.seen ch = c at hmode
  split
  · refine ⟨mode, congrArg (fun absolute : Bool => ({ c.plain with
      mode, request := { r.merge c.request with absolute } } : Collector)) ?_, hmode⟩
    exact (Bool.or_true r.absolute).symm
  · rcases textOwner c.stack with _ | ⟨owner, keep⟩
    · exact ⟨mode, rfl, hmode⟩
    · cases owner
      case outputRedirect => exact ⟨.append, rfl, fun _ => rfl⟩
      all_goals exact ⟨mode, rfl, hmode⟩

/-- A redirection is left with its own mode, and a property goes into the list that is there. -/
theorem Atop.leave (h : Atop r c d) {l : Label} {n : Nat} {x : Option Char}
    (hopen : c.stack = l :: st) (hproperty : l = .property → c.request.properties ≠ none) :
    Atop r (c.follow (.leaving l n x)) (d.follow (.leaving l n x)) := by
  obtain ⟨mode, rfl, hmode⟩ := h
  have htail : .outputRedirect ∈ c.stack.tail → mode = c.mode :=
    fun hmem => hmode (List.mem_of_mem_tail hmem)
  rw [follow_leaving, follow_leaving]
  cases l
  case node =>
    refine ⟨mode, ?_, htail⟩
    simp only [leave_node, finishSegment_eq, Request.merge, List.append_assoc]
    rfl
  case operationName =>
    simp only [leave_operationName]
    split
    · exact ⟨mode, rfl, htail⟩
    · exact ⟨mode, rfl, htail⟩
  case property =>
    obtain ⟨ps, hps⟩ := Option.ne_none_iff_exists'.mp (hproperty rfl)
    refine ⟨mode, ?_, htail⟩
    simp only [leave_property, finishProperty_eq, Request.merge, hps]
    rfl
  case outputRedirect =>
    obtain rfl := hmode (hopen ▸ List.mem_cons_self)
    exact ⟨c.mode, rfl, fun _ => rfl⟩
  all_goals exact ⟨mode, rfl, htail⟩

/-- A single event, if it is about the innermost state and no property is left before there is a
list for it. -/
theorem Atop.follow (h : Atop r c d) (hnest : e.nest? .initial c.stack = some st)
    (hproperty : c.request.properties ≠ none ∨ e.state ≠ .property) :
    Atop r (c.follow e) (d.follow e) := by
  cases e with
  | entered l n => exact h.enter l n
  | character l ch n => exact h.take l ch n
  | leaving l n x =>
    exact h.leave (Event.eq_cons_of_leaving hnest) fun hl => hproperty.resolve_right (· hl)

/-- A list that was there is not taken back. -/
theorem properties_ne_none_follow (h : c.request.properties ≠ none) :
    (c.follow e).request.properties ≠ none := by
  by_cases hentered : e.entersList = true
  · unfold Event.entersList at hentered
    split at hentered
    · exact Option.some_ne_none _
    · cases hentered
  · rcases c.properties_follow (Bool.eq_false_iff.mpr hentered) with hfollow | ⟨-, hfollow⟩
    · rwa [hfollow]
    · rw [hfollow]
      simpa using h

theorem nest_stack_foldl (h : es.foldlM (Event.nest? .initial) c.stack = some st) :
    (es.foldl Collector.follow c).stack = st := by
  induction es generalizing c with
  | nil => exact Option.some.inj h
  | cons e es ih =>
    rw [List.foldlM_cons] at h
    obtain ⟨st', he, h⟩ := Option.bind_eq_some_iff.mp h
    exact ih (by rwa [nest_stack he])

theorem Atop.foldl (h : Atop r c d) (hnest : es.foldlM (Event.nest? .initial) c.stack = some st)
    (hproperty : c.request.properties ≠ none ∨ ∀ e ∈ es, e.state ≠ .property) :
    Atop r (es.foldl Collector.follow c) (es.foldl Collector.follow d) := by
  induction es generalizing c d with
  | nil => exact h
  | cons e es ih =>
    rw [List.foldlM_cons] at hnest
    obtain ⟨st', he, hnest⟩ := Option.bind_eq_some_iff.mp hnest
    have hstep : Atop r (c.follow e) (d.follow e) :=
      h.follow he (hproperty.imp_right fun hes => hes e List.mem_cons_self)
    refine ih hstep (by rwa [nest_stack he]) ?_
    exact hproperty.imp properties_ne_none_follow
      fun hes x hx => hes x (List.mem_cons_of_mem e hx)

end Collector

namespace Place

variable {o : Options} {n : Nat} {p q : Place}

/-- There is no property without a list. -/
theorem exists_entered_of_property {cs : List Char} {e : Event} (hp : p.outer ∈ beforeList)
    (he : e ∈ (p.read o n cs).1) (hstate : e.state = .property) :
    ∃ m, .entered .propertyList m ∈ (p.read o n cs).1 := by
  induction cs generalizing n p with
  | nil =>
    have hnear : ∀ part ∈ beforeList, .property ∉ Request.near part := by decide
    have hfinish : e ∈ (p.finish o n).1 := by simpa [read, feed, delay] using he
    exact absurd hstate ((within_finish p).state_ne (hnear _ hp) hfinish)
  | cons ch cs ih =>
    have hnot : e ∉ (p.next o n ch).1 := fun hmem => (state_ne_of_beforeList hp e hmem).1 hstate
    have horderly : Orderly p (p.next o n ch) := orderly_next
    rcases hnext : p.next o n ch with ⟨es, x | q⟩ <;> rw [hnext] at hnot horderly
    · rw [read_cons_of_error hnext] at he
      exact absurd he hnot
    rw [read_cons hnext] at he ⊢
    have hrest := (List.mem_append.mp he).resolve_left hnot
    have hstays : q.outer ∈ beforeList → ∃ m, .entered .propertyList m ∈
        es ++ (q.read o (n + ch.utf8Size) cs).1 := fun hq =>
      (ih hq hrest).imp fun m hm => List.mem_append_right es hm
    cases horderly with
    | stays _ hpart _ => exact hstays (hpart ▸ hp)
    | opens part l hpart hl _ hq hout =>
      have hopened : ∀ part ∈ beforeList, ∀ l ∈ Request.nextParts part,
          some l ∈ beforeList ∨ l = .propertyList ∨ l = .outputRedirect := by decide
      rcases hopened part (hpart ▸ hp) l hl with hbefore | rfl | rfl
      · exact hstays (hq ▸ hbefore)
      · have hmem : .propertyList ∈ outermost p.labels.length es := hout ▸ List.mem_cons_self
        exact (exists_entered_of_mem_outermost hmem).imp fun m hm => List.mem_append_left _ hm
      · have hlast : ∃ part ∈ [Label.outputRedirect], q.outer = some part :=
          ⟨_, List.mem_cons_self, hq⟩
        exact absurd hstate (state_ne_of_mem_read (by decide) (by decide) cs hlast e hrest)

/-- The events of an accepted line leave what they enter. -/
theorem nests_read {line : String} (h : (read o 0 line.toList .start).2 = none) :
    Nests .initial (read o 0 line.toList .start).1 [] := by
  obtain ⟨opened, hnests, hclosed⟩ :=
    (Request.machine o Sink.ignore).run_nests Request.still_onLeave Request.bound line
  obtain ⟨hevents, houtcome⟩ := Request.run_record o line
  have hok : (Request.run o Sink.record line #[]).outcome = .ok () := by rw [houtcome, h]; rfl
  obtain rfl := hclosed hok
  rw [← hevents]
  exact hnests

/-- Over the events of an accepted line the collector stays on top of the old request. A list is
there before its first property, so a line that has one is cut where the list is entered. -/
theorem atop_read {line : String} {r : Request} {c d : Collector} (h : Collector.Atop r c d)
    (hc : c.stack = []) (hok : (read o 0 line.toList .start).2 = none) :
    Collector.Atop r ((read o 0 line.toList .start).1.foldl Collector.follow c)
      ((read o 0 line.toList .start).1.foldl Collector.follow d) := by
  have hnests : (read o 0 line.toList .start).1.foldlM (Event.nest? .initial) c.stack
      = some [] := by
    rw [hc]
    exact nests_read hok
  by_cases hlist : ∃ m, .entered .propertyList m ∈ (read o 0 line.toList .start).1
  · obtain ⟨m, hm⟩ := hlist
    obtain ⟨-, before, after, es, hline, -, hfeed, hes⟩ := exists_list_of_entered hm
    have hread := read_append hfeed after
    rw [List.append_assoc, List.singleton_append, ← hline] at hread
    rw [hread, delay] at hnests ⊢
    rw [List.foldlM_append] at hnests
    obtain ⟨st, hfirst, hnests⟩ := Option.bind_eq_some_iff.mp hnests
    have hbefore := h.foldl hfirst (.inr fun e he => by
      rcases List.mem_append.mp he with he | he
      · exact (hes e he).1
      · obtain rfl := List.mem_singleton.mp he
        exact Label.noConfusion)
    have hlist : ((es ++ [Event.entered .propertyList m]).foldl
        Collector.follow c).request.properties ≠ none := by
      rw [List.foldl_append]
      exact Option.some_ne_none _
    rw [List.foldl_append, List.foldl_append (l := es ++ _)]
    exact hbefore.foldl (by rwa [Collector.nest_stack_foldl hfirst]) (.inl hlist)
  · refine h.foldl hnests (.inr fun e he hstate => hlist ?_)
    exact exists_entered_of_property (List.mem_of_elem_eq_true rfl) he hstate

end Place

namespace Collector

variable {o : Options} {r q : Request} {c : Collector} {line : String}

/-- Between two lines the collector has the request `r`, of which no list is open. -/
structure Idle (o : Options) (r : Request) (c : Collector) : Prop where
  plain : ∃ mode, c.plain = { options := o, request := r, mode }
  listOpen : c.listOpen = false
  named : r.operation ≠ some ""

theorem Idle.start (o : Options) : Idle o {} { options := o } :=
  ⟨⟨.overwrite, rfl⟩, rfl, by simp⟩

theorem Idle.request (h : Idle o r c) : c.request = r := by
  obtain ⟨mode, hplain⟩ := h.plain
  exact congrArg Collector.request hplain

theorem Idle.atRest (h : Idle o r c) : c.AtRest := by
  obtain ⟨mode, hplain⟩ := h.plain
  exact ⟨congrArg Collector.stack hplain, congrArg Collector.nodeType hplain,
    congrArg Collector.nodeName hplain, congrArg Collector.operation hplain,
    congrArg Collector.property hplain, congrArg Collector.target hplain⟩

/-- An accepted line puts its request on top of the old one. -/
theorem Idle.read (h : Idle o r c) (hq : Request.parse o line = .ok q) :
    Idle o (r.merge q) (Collector.read o line c).consumer := by
  obtain ⟨hok, -⟩ := Request.parse_eq_ok_iff.mp hq
  obtain ⟨mode, hplain⟩ := h.plain
  obtain ⟨mode', hfold⟩ := (Place.settles_read hq).fold
  rw [Collector.read_eq]
  have hnamed : q.operation ≠ some "" := (Request.wellFormed_of_parse hq).operation_ne
  refine ⟨?_, ?_, Request.operation_merge_ne h.named hnamed⟩
  · have hstart : Atop r { options := o } c.plain := by
      refine ⟨mode, ?_, fun hmem => by cases hmem⟩
      rw [hplain, Request.merge_empty]
    have hatop := Place.atop_read hstart rfl hok
    rw [hfold, ← plain_foldl_step] at hatop
    obtain ⟨mode'', hplain', -⟩ := hatop
    exact ⟨mode'', hplain'⟩
  · refine listOpen_foldl_step ?_
    rw [h.listOpen]
    exact Place.lists_read hok

/-- Any number of accepted lines. -/
theorem Idle.foldl_read {lines : List String} {rs : List Request} (h : Idle o r c)
    (hlines : List.Forall₂ (fun line q => Request.parse o line = .ok q) lines rs) :
    Idle o (rs.foldl Request.merge r)
      (lines.foldl (fun c line => (Collector.read o line c).consumer) c) := by
  induction hlines generalizing r c with
  | nil => exact h
  | cons hq _ ih => exact ih (h.read hq)

theorem Idle.isComplete_iff (h : Idle o r c) : c.isComplete = true ↔ r.operation ≠ none := by
  have hrequest := h.request
  subst hrequest
  exact isComplete_of_closed h.listOpen h.named

end Collector

/-- A line that is accepted gives a request. -/
theorem Request.exists_parse_of_check {o : Options} {line : String}
    (h : Request.check o line = .ok ()) : ∃ r, Request.parse o line = .ok r := by
  rw [check, outcome_of_accepting o Sink.ignore_accepting, Place.verdict_eq_ok_iff] at h
  exact ⟨_, Request.parse_eq_ok_iff.mpr ⟨h, rfl⟩⟩

theorem Request.exists_parses_of_check {o : Options} {lines : List String}
    (h : ∀ line ∈ lines, Request.check o line = .ok ()) :
    ∃ rs, List.Forall₂ (fun line r => Request.parse o line = .ok r) lines rs := by
  induction lines with
  | nil => exact ⟨[], .nil⟩
  | cons line lines ih =>
    obtain ⟨r, hr⟩ := exists_parse_of_check (h line List.mem_cons_self)
    obtain ⟨rs, hrs⟩ := ih fun x hx => h x (List.mem_cons_of_mem line hx)
    exact ⟨r :: rs, .cons hr hrs⟩

/-- After each of a number of accepted lines the collector has nothing in hand but the request that
those of the lines so far merge to, and that is complete if it names an operation. -/
theorem collector_has_no_residue {o : Options} {lines : List String}
    (h : ∀ line ∈ lines, Request.check o line = .ok ()) :
    ∃ rs : List Request, List.Forall₂ (fun line r => Request.parse o line = .ok r) lines rs
      ∧ ∀ k,
        let c := (lines.take k).foldl (fun c line => (Collector.read o line c).consumer)
          { options := o }
        c.AtRest ∧ c.request = Request.merged (rs.take k)
          ∧ (c.isComplete = true ↔ (Request.merged (rs.take k)).operation ≠ none) := by
  obtain ⟨rs, hrs⟩ := Request.exists_parses_of_check h
  refine ⟨rs, hrs, fun k => ?_⟩
  have hidle := (Collector.Idle.start o).foldl_read (List.forall₂_take k hrs)
  rw [Request.foldl_merge, Request.empty_merge] at hidle
  exact ⟨hidle.atRest, hidle.request, hidle.isComplete_iff⟩

/-- The second line names another operation. The root, the list and the redirection are those of
the first. -/
theorem no_residue_of_second_operation :
    let lines := ["/a=b:op(x=1) >> f", "c:run"]
    let r : Request :=
      { absolute := true, address := [.node ⟨"a", some "b"⟩, .node ⟨"c", none⟩]
        operation := some "run", properties := some [⟨"x", some "1", some 9⟩]
        redirect := some ⟨.append, "f"⟩ }
    let c := lines.foldl (fun c line => (Collector.read {} line c).consumer) { options := {} }
    (∀ line ∈ lines, Request.check {} line = .ok ()) ∧ c.AtRest ∧ c.request = r
      ∧ c.isComplete = true := by
  intro lines r c
  have haccepted : ∀ line ∈ ["/a=b:op(x=1) >> f", "c:run"], Request.check {} line = .ok () := by
    decide +kernel
  have hfirst : Request.parse {} "/a=b:op(x=1) >> f" = .ok
      { absolute := true, address := [.node ⟨"a", some "b"⟩], operation := some "op"
        properties := some [⟨"x", some "1", some 9⟩], redirect := some ⟨.append, "f"⟩ } := by
    decide +kernel
  have hsecond : Request.parse {} "c:run" = .ok
      { address := [.node ⟨"c", none⟩], operation := some "run" } := by decide +kernel
  obtain ⟨rs, hrs, hresidue⟩ := collector_has_no_residue haccepted
  obtain _ | ⟨h₁, _ | ⟨h₂, _ | _⟩⟩ := hrs
  obtain rfl := Except.ok.inj (hfirst.symm.trans h₁)
  obtain rfl := Except.ok.inj (hsecond.symm.trans h₂)
  obtain ⟨hrest, hrequest, hcomplete⟩ := hresidue 2
  exact ⟨haccepted, hrest, hrequest, hcomplete.mpr (Option.some_ne_none "run")⟩

end RequestLine
