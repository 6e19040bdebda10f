import RequestLine.Proofs.WellFormed

/-!
# The fields of a collector

Whatever its events are, a collector changes its fields in two ways only: it begins a new one, or it
gives one of them the character of an event. So what holds of the empty field, and of a field with
such a character more, holds of each field at every moment (`EachField.step`).
-/

namespace RequestLine.Collector

/-- The collector has the options `o`, and `Q` holds of each of its fields. -/
structure EachField (o : Options) (Q : Field → Prop) (c : Collector) : Prop where
  options : c.options = o
  nodeType : Q c.nodeType
  nodeName : ∀ f, c.nodeName = some f → Q f
  operation : Q c.operation
  name : Q c.property.name
  value : ∀ f, c.property.value = some f → Q f
  target : Q c.target

namespace EachField

variable {o : Options} {Q : Field → Prop} {c : Collector} {ch : Char}

theorem start (hempty : Q {}) : EachField o Q { options := o } where
  options := rfl
  nodeType := hempty
  nodeName := by simp
  operation := hempty
  name := hempty
  value := by simp
  target := hempty

theorem enter (h : c.EachField o Q) (hempty : Q {}) (l : Label) (n : Nat) :
    (c.enter l n).EachField o Q := by
  have hnew : ∀ f, some ({} : Field) = some f → Q f := by
    rintro f ⟨⟩
    exact hempty
  cases l
  case nodeName => exact { h with nodeName := hnew }
  case propertyValue => exact { h with value := hnew }
  all_goals exact { h with }

theorem give (h : c.EachField o Q) (hpush : ∀ f keep, Q f → Q (f.push ch keep)) (owner : Label)
    (keep : Bool) : (c.give owner ch keep).EachField o Q := by
  have hmap : ∀ f₀ : Option Field, (∀ f, f₀ = some f → Q f) →
      ∀ f, f₀.map (·.push ch keep) = some f → Q f := by
    intro f₀ hf₀ f hf
    obtain ⟨g, hg, rfl⟩ := Option.map_eq_some_iff.mp hf
    exact hpush g keep (hf₀ g hg)
  cases owner
  case node => exact { h with nodeType := hpush _ keep h.nodeType }
  case nodeName => exact { h with nodeName := hmap _ h.nodeName }
  case operationName => exact { h with operation := hpush _ keep h.operation }
  case property => exact { h with name := hpush _ keep h.name }
  case propertyValue => exact { h with value := hmap _ h.value }
  case outputTarget => exact { h with target := hpush _ keep h.target }
  all_goals exact { h with }

theorem take (h : c.EachField o Q) (hpush : ∀ f keep, Q f → Q (f.push ch keep)) (l : Label) :
    (c.take l ch).EachField o Q := by
  have hseen : (c.seen ch).EachField o Q := by
    unfold seen
    split
    · exact h
    · exact { h with }
  rw [take_eq]
  split
  · exact { hseen with }
  · split
    · exact hseen
    · exact hseen.give hpush _ _

theorem leave (h : c.EachField o Q) (hempty : Q {}) (l : Label) (x : Option Char) :
    (c.leave l x).EachField o Q := by
  cases l
  case node =>
    rw [leave_node, finishSegment_eq]
    split <;> exact { h with nodeType := hempty, nodeName := by simp }
  case operationName =>
    rw [leave_operationName]
    split
    · exact { h with }
    · exact { h with operation := hempty }
  case property =>
    rw [leave_property, finishProperty_eq]
    split <;> exact { h with name := hempty, value := by simp }
  case outputRedirect => exact { h with target := hempty }
  all_goals exact { h with }

theorem step {e : Event} (h : c.EachField o Q) (hempty : Q {})
    (hpush : ∀ l ch n, e = .character l ch n → ∀ f keep, Q f → Q (f.push ch keep)) :
    (c.step e).EachField o Q := by
  cases e with
  | entered l n => exact h.enter hempty l n
  | character l ch n => exact h.take (hpush l ch n rfl) l
  | leaving l n x => exact h.leave hempty l x

end EachField

end RequestLine.Collector
