import RequestLine.Proofs.Drafting
import RequestLine.Proofs.RoundTrip
import RequestLine.Proofs.Shifting

/-!
# Drafts and requests that are alike

Two lines that differ in blanks alone are read into texts that differ in loose blanks, and those are
trimmed when the texts are done. A text that has only to be ended must read alike, without the loose
blanks at both ends; a text that goes on must begin alike, so that more characters keep it so. With
either comparison for the text that is being read, drafts and what is done can be compared
(`Progress.Alike`): events that pass nothing on keep the first comparison, all events the second.
-/

namespace RequestLine

namespace Text

variable {isBlank : Char → Bool} {ps qs rs : List (Char × Bool)}

/-- Read to the end, the two make the same text and the same kind of step. -/
structure ReadsAlike (isBlank : Char → Bool) (ps qs : List (Char × Bool)) : Prop where
  trim : trimLoose isBlank ps = trimLoose isBlank qs
  kept : ps.any Prod.snd = qs.any Prod.snd

/-- The two differ in the loose blanks at the beginning, and in nothing else. -/
def BeginsAlike (isBlank : Char → Bool) (ps qs : List (Char × Bool)) : Prop :=
  ps.dropWhile (isLoose isBlank) = qs.dropWhile (isLoose isBlank)

/-- By the relation texts compare that read alike, those without a character among them. -/
structure Comparison (isBlank : Char → Bool)
    (R : List (Char × Bool) → List (Char × Bool) → Prop) : Prop where
  readsAlike : ∀ {ps qs}, R ps qs → ReadsAlike isBlank ps qs
  nil : R [] []

theorem ReadsAlike.refl (ps : List (Char × Bool)) : ReadsAlike isBlank ps ps :=
  ⟨rfl, rfl⟩

theorem any_kept_dropWhile (isBlank : Char → Bool) (ps : List (Char × Bool)) :
    (ps.dropWhile (isLoose isBlank)).any Prod.snd = ps.any Prod.snd := by
  induction ps with
  | nil => rfl
  | cons p ps ih =>
    rw [List.dropWhile_cons]
    split
    · rename_i hloose
      have hkept : p.2 = false := by
        simp only [isLoose, Bool.and_eq_true, Bool.not_eq_true'] at hloose
        exact hloose.2
      rw [ih, List.any_cons, hkept, Bool.false_or]
    · rfl

theorem BeginsAlike.readsAlike (h : BeginsAlike isBlank ps qs) : ReadsAlike isBlank ps qs where
  trim := by rw [trimLoose, trimLoose, h]
  kept := by rw [← any_kept_dropWhile isBlank ps, h, any_kept_dropWhile]

theorem BeginsAlike.append (h : BeginsAlike isBlank ps qs) (rs : List (Char × Bool)) :
    BeginsAlike isBlank (ps ++ rs) (qs ++ rs) := by
  rw [BeginsAlike] at h ⊢
  rw [List.dropWhile_append, List.dropWhile_append, h]

theorem comparison_readsAlike : Comparison isBlank (ReadsAlike isBlank) :=
  ⟨id, .refl []⟩

theorem comparison_beginsAlike : Comparison isBlank (BeginsAlike isBlank) :=
  ⟨BeginsAlike.readsAlike, rfl⟩

theorem beginsAlike_loose (h : ∀ r ∈ rs, isLoose isBlank r = true) : BeginsAlike isBlank [] rs :=
  (List.dropWhile_eq_nil_iff.mpr h).symm

theorem readsAlike_append_loose (h : ∀ r ∈ rs, isLoose isBlank r = true) :
    ReadsAlike isBlank ps (ps ++ rs) where
  trim := by
    have hdrop : rs.dropWhile (isLoose isBlank) = [] := List.dropWhile_eq_nil_iff.mpr h
    rw [trimLoose, trimLoose, List.dropWhile_append, hdrop]
    split
    · rename_i hnil
      rw [List.isEmpty_iff.mp hnil]
    · rw [List.rdropWhile, List.rdropWhile, List.reverse_append,
        List.dropWhile_append_of_pos fun r hr => h r (List.mem_reverse.mp hr)]
  kept := by
    have hnone : rs.any Prod.snd = false := by
      rw [← any_kept_dropWhile isBlank rs, List.dropWhile_eq_nil_iff.mpr h]
      rfl
    rw [List.any_append, hnone, Bool.or_false]

end Text

namespace Draft

/-- The text that is being read. -/
def current : Draft → List (Char × Bool)
  | nothing => []
  | segment type none => type
  | segment _ (some name) => name
  | operation name => name
  | property name none => name
  | property _ (some (_, value)) => value
  | redirect _ target => target

/-- The drafts have the same texts: those that are being read compare by `R`, and those that are
done read alike. -/
inductive Alike (o : Options) (R : List (Char × Bool) → List (Char × Bool) → Prop) :
    Draft → Draft → Prop
  | nothing : Alike o R nothing nothing
  | type {ps qs : List (Char × Bool)} (h : R ps qs) :
    Alike o R (segment ps none) (segment qs none)
  | name {ps qs ps' qs' : List (Char × Bool)} (htype : Text.ReadsAlike o.isBlank ps qs)
    (h : R ps' qs') : Alike o R (segment ps (some ps')) (segment qs (some qs'))
  | operation {ps qs : List (Char × Bool)} (hempty : ps.isEmpty = qs.isEmpty) (h : R ps qs) :
    Alike o R (operation ps) (operation qs)
  | property {ps qs : List (Char × Bool)} (h : R ps qs) :
    Alike o R (property ps none) (property qs none)
  | value {ps qs ps' qs' : List (Char × Bool)} {n n' : Nat}
    (hname : Text.ReadsAlike o.isBlank ps qs) (h : R ps' qs') :
    Alike o R (property ps (some (n, ps'))) (property qs (some (n', qs')))
  | redirect {ps qs : List (Char × Bool)} {mode : RedirectMode} (h : R ps qs) :
    Alike o R (redirect mode ps) (redirect mode qs)

variable {o : Options} {R S : List (Char × Bool) → List (Char × Bool) → Prop} {d d' : Draft}
  {r r' : Request}

theorem text_of_readsAlike {ps qs : List (Char × Bool)} (h : Text.ReadsAlike o.isBlank ps qs) :
    text o ps = text o qs := by
  rw [text, text, h.trim]

namespace Alike

theorem refl (hR : ∀ ps, R ps ps) (d : Draft) : Alike o R d d := by
  rcases d with _ | ⟨type, _ | name⟩ | name | ⟨name, _ | ⟨m, value⟩⟩ | ⟨mode, target⟩
  · exact .nothing
  · exact .type (hR _)
  · exact .name (.refl _) (hR _)
  · exact .operation rfl (hR _)
  · exact .property (hR _)
  · exact .value (.refl _) (hR _)
  · exact .redirect (hR _)

theorem label (h : Alike o R d d') : d'.label = d.label := by
  cases h <;> rfl

theorem part (h : Alike o R d d') : d'.part = d.part := by
  cases h <;> rfl

/-- It does not matter how texts compare that have not begun. -/
theorem of_current (h : Alike o R d d') (hd : d.current = []) (hd' : d'.current = [])
    (hS : S [] []) : Alike o S d d' := by
  cases h with
  | nothing => exact .nothing
  | type h =>
    cases hd
    cases hd'
    exact .type hS
  | name htype h =>
    cases hd
    cases hd'
    exact .name htype hS
  | operation hempty h =>
    cases hd
    cases hd'
    exact .operation rfl hS
  | property h =>
    cases hd
    cases hd'
    exact .property hS
  | value hname h =>
    cases hd
    cases hd'
    exact .value hname hS
  | redirect h =>
    cases hd
    cases hd'
    exact .redirect hS

/-- More characters keep drafts alike whose texts they keep alike. -/
theorem add (h : Alike o R d d') (hR : ∀ {ps qs} p, R ps qs → R (ps ++ [p]) (qs ++ [p]))
    (p : Char × Bool) : Alike o R (d.add p) (d'.add p) := by
  cases h with
  | nothing => exact .nothing
  | type h => exact .type (hR p h)
  | name htype h => exact .name htype (hR p h)
  | operation hempty h =>
    have hsome : ∀ ps : List (Char × Bool), (ps ++ [p]).isEmpty = false := fun ps => by
      cases ps <;> rfl
    exact .operation ((hsome _).trans (hsome _).symm) (hR p h)
  | property h => exact .property (hR p h)
  | value hname h => exact .value hname (hR p h)
  | redirect h => exact .redirect (hR p h)

theorem named (h : Alike o R d d') (hR : Text.Comparison o.isBlank R) :
    Alike o R d.named d'.named := by
  cases h with
  | type h => exact .name (hR.readsAlike h) hR.nil
  | name htype h => exact .name htype hR.nil
  | nothing => exact .nothing
  | operation hempty h => exact .operation hempty h
  | property h => exact .property h
  | value hname h => exact .value hname h
  | redirect h => exact .redirect h

theorem valued (h : Alike o R d d') (hR : Text.Comparison o.isBlank R) (n n' : Nat) :
    Alike o R (d.valued n) (d'.valued n') := by
  cases h with
  | property h => exact .value (hR.readsAlike h) hR.nil
  | value hname h => exact .value hname hR.nil
  | nothing => exact .nothing
  | type h => exact .type h
  | name htype h => exact .name htype h
  | operation hempty h => exact .operation hempty h
  | redirect h => exact .redirect h

theorem appending (h : Alike o R d d') : Alike o R d.appending d'.appending := by
  cases h with
  | redirect h => exact .redirect h
  | nothing => exact .nothing
  | type h => exact .type h
  | name htype h => exact .name htype h
  | operation hempty h => exact .operation hempty h
  | property h => exact .property h
  | value hname h => exact .value hname h

/-- Parts of drafts that are alike are the same up to offsets. -/
theorem into (h : Alike o R d d') (hR : Text.Comparison o.isBlank R)
    (hr : r'.unplaced = r.unplaced) : (d'.into o r').unplaced = (d.into o r).unplaced := by
  obtain ⟨absolute, address, op, properties, redirect⟩ := r
  obtain ⟨absolute', address', op', properties', redirect'⟩ := r'
  simp only [Request.unplaced, Request.mk.injEq] at hr
  obtain ⟨rfl, rfl, rfl, hproperties, rfl⟩ := hr
  have hmore : ∀ {new new' : List Property},
      new'.map Property.unplaced = new.map Property.unplaced →
      (properties'.map (· ++ new')).map (List.map Property.unplaced)
        = (properties.map (· ++ new)).map (List.map Property.unplaced) := by
    intro new new' hnew
    cases properties <;> cases properties' <;> simp_all
  have htext : ∀ {ps qs}, R ps qs → text o ps = text o qs := fun h =>
    text_of_readsAlike (hR.readsAlike h)
  cases h with
  | nothing => simp [Draft.into, Request.unplaced, hproperties]
  | type h =>
    simp [Draft.into, Request.unplaced, htext h, (hR.readsAlike h).kept, hproperties]
  | name htype h =>
    simp [Draft.into, Request.unplaced, text_of_readsAlike htype, htext h, htype.kept,
      hproperties]
  | operation hempty h =>
    simp only [Draft.into, hempty, htext h]
    split <;> simp [Request.unplaced, hproperties]
  | property h =>
    simp only [Draft.into, htext h, Request.unplaced, Option.isNone_none, Option.map_none,
      Request.mk.injEq, true_and, and_true]
    exact hmore rfl
  | value hname h =>
    simp only [Draft.into, text_of_readsAlike hname, htext h, Request.unplaced,
      Option.isNone_some, Option.map_some, Request.mk.injEq, true_and, and_true]
    refine hmore ?_
    split <;> rfl
  | redirect h => simp [Draft.into, Request.unplaced, htext h, hproperties]

end Alike

/-- More characters in one of them matter if and only if they matter to its text. -/
theorem alike_addAll (ps : List (Char × Bool)) (hd : d.label = .operationName → d.current ≠ [])
    (hR : R d.current (d.current ++ ps)) : Alike o R d (d.addAll ps) := by
  rcases d with _ | ⟨type, _ | name⟩ | name | ⟨name, _ | ⟨m, value⟩⟩ | ⟨mode, target⟩
  · have hnothing : ∀ ps, nothing.addAll ps = nothing := fun ps => by
      induction ps with
      | nil => rfl
      | cons p ps ih => exact ih
    rw [hnothing]
    exact .nothing
  · rw [addAll_of_add (fun ps => segment ps none) fun _ _ => rfl]
    exact .type hR
  · rw [addAll_of_add (fun ps => segment type (some ps)) fun _ _ => rfl]
    exact .name (.refl type) hR
  · rw [addAll_of_add operation fun _ _ => rfl]
    obtain ⟨p, qs, rfl⟩ := List.exists_cons_of_ne_nil (hd rfl)
    exact .operation rfl hR
  · rw [addAll_of_add (fun ps => property ps none) fun _ _ => rfl]
    exact .property hR
  · rw [addAll_value]
    exact .value (.refl name) hR
  · rw [addAll_redirect]
    exact .redirect hR

end Draft

/-- The event is no character that a state passes on. -/
def Event.isQuiet : Event → Bool
  | .character _ _ _ => false
  | _ => true

/-- What begins with the state has no text yet. -/
def Label.beginsText (l : Label) : Bool :=
  l ∈ [.node, .nodeName, .operationName, .propertyList, .property, .propertyValue, .requestEnd,
    .outputRedirect]

namespace Progress

/-- The same is done up to offsets, and the drafts are alike. -/
structure Alike (o : Options) (R : List (Char × Bool) → List (Char × Bool) → Prop)
    (x x' : Progress) : Prop where
  done : x'.done.unplaced = x.done.unplaced
  draft : Draft.Alike o R x.draft x'.draft

variable {o : Options} {R : List (Char × Bool) → List (Char × Bool) → Prop} {x x' : Progress}
  {d : Nat} {e : Event}

namespace Alike

theorem enter (h : Alike o R x x') (hR : Text.Comparison o.isBlank R) (l : Label) (n n' : Nat) :
    Alike o R (x.enter l n) (x'.enter l n') := by
  obtain ⟨hdone, hdraft⟩ := h
  cases l with
  | node => exact ⟨hdone, .type hR.nil⟩
  | nodeName => exact ⟨hdone, hdraft.named hR⟩
  | operationName => exact ⟨hdone, .operation rfl hR.nil⟩
  | propertyList =>
    refine ⟨?_, .nothing⟩
    simp only [Request.unplaced, Request.mk.injEq] at hdone
    simp only [Progress.enter, Request.unplaced, hdone]
  | property => exact ⟨hdone, .property hR.nil⟩
  | propertyValue => exact ⟨hdone, hdraft.valued hR n n'⟩
  | requestEnd => exact ⟨hdone, .nothing⟩
  | outputRedirect => exact ⟨hdone, .redirect hR.nil⟩
  | _ => exact ⟨hdone, hdraft⟩

theorem leave (h : Alike o R x x') (hR : Text.Comparison o.isBlank R) (l : Label) :
    Alike o R (x.leave o l) (x'.leave o l) := by
  rw [Progress.leave, Progress.leave, h.draft.part]
  split
  · exact ⟨h.draft.into hR h.done, .nothing⟩
  · exact h

theorem give (h : Alike o R x x') (hadd : ∀ {ps qs} p, R ps qs → R (ps ++ [p]) (qs ++ [p]))
    (l : Label) (ch : Char) : Alike o R (x.give l ch) (x'.give l ch) := by
  obtain ⟨hdone, hdraft⟩ := h
  rw [Progress.give, Progress.give]
  split
  · refine ⟨?_, hdraft⟩
    simp only [Request.unplaced, Request.mk.injEq] at hdone ⊢
    exact ⟨trivial, hdone.2⟩
  split
  · exact ⟨hdone, hdraft.appending⟩
  · exact ⟨hdone, hdraft.add hadd _⟩

/-- Events that pass nothing on keep what reads alike. -/
theorem foldl_quiet {es : List Event} (h : Alike o R x x') (hR : Text.Comparison o.isBlank R)
    (hes : ∀ e ∈ es, e.isQuiet = true) :
    Alike o R (es.foldl (take o) x) ((es.map (Event.shift d)).foldl (take o) x') := by
  induction es generalizing x x' with
  | nil => exact h
  | cons e es ih =>
    rw [List.forall_mem_cons] at hes
    cases e with
    | entered l n => exact ih (h.enter hR l n (n + d)) hes.2
    | character l ch n => cases hes.1
    | leaving l n c => exact ih (h.leave hR l) hes.2

/-- What begins alike goes on alike. -/
theorem foldl_take (h : Alike o (Text.BeginsAlike o.isBlank) x x') (es : List Event) :
    Alike o (Text.BeginsAlike o.isBlank) (es.foldl (take o) x)
      ((es.map (Event.shift d)).foldl (take o) x') := by
  induction es generalizing x x' with
  | nil => exact h
  | cons e es ih =>
    have hR : Text.Comparison o.isBlank (Text.BeginsAlike o.isBlank) := Text.comparison_beginsAlike
    cases e with
    | entered l n => exact ih (h.enter hR l n (n + d))
    | character l ch n => exact ih (h.give (fun p hps => hps.append [p]) l ch)
    | leaving l n c => exact ih (h.leave hR l)

end Alike

/-- A state that begins a text is entered with nothing in hand, or with the part of the draft that
comes before the text. -/
theorem current_enter {st : List Label} {s : List Label × Label} {l : Label} {n : Nat}
    (hl : l.beginsText = true)
    (hdrafts : (Event.entered l n).drafts? (st, x.draft.label) = some s) :
    (x.enter l n).draft.current = [] := by
  obtain ⟨done, d⟩ := x
  cases l with
  | nodeName =>
    rcases d with _ | ⟨type, _ | name⟩ | name | ⟨name, _ | ⟨m, value⟩⟩ | ⟨mode, target⟩ <;>
      first | rfl | cases hdrafts
  | propertyValue =>
    rcases d with _ | ⟨type, _ | name⟩ | name | ⟨name, _ | ⟨m, value⟩⟩ | ⟨mode, target⟩ <;>
      first | rfl | cases hdrafts
  | _ => first | rfl | cases hl

end Progress

end RequestLine
