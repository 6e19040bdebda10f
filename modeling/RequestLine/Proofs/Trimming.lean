import RequestLine.Proofs.Fields
import RequestLine.Proofs.Glyph

/-!
# Trimming around what is kept

A field keeps one range for all the characters that are to be kept, with others among them, and its
text is cut there into three parts that are trimmed each on its own. What comes out is the text less
the blanks at both ends that need not be kept, one character after the other
(`Field.drain?_pushAll`).

A cut may fall inside a character or past the end of a text, and then there is no text.
`Collector.step?` is the collector that stops at such a cut. Every field of a collector has received
its characters one by one, so it never stops, and does what `Collector.step` does
(`trimming_is_exact_and_safe`).
-/

namespace RequestLine

namespace Field

variable {isBlank : Char → Bool} {f : Field}

/-- All that happened to the field is that it received characters. -/
def Received (f : Field) : Prop :=
  ∃ ps, f = pushAll ps

theorem Received.empty : Received {} :=
  ⟨[], rfl⟩

theorem Received.push (h : f.Received) (ch : Char) (keep : Bool) : (f.push ch keep).Received := by
  obtain ⟨ps, rfl⟩ := h
  exact ⟨ps ++ [(ch, keep)], (pushAll_append ps (ch, keep)).symm⟩

theorem drain?_pushAll (isBlank : Char → Bool) (ps : List (Char × Bool)) :
    (pushAll ps).drain? isBlank = some (String.ofList (Text.trimLoose isBlank ps), {}) := by
  rw [drain?, (ranges_pushAll ps).trimmed? (text_pushAll ps), Option.map_some]

theorem Received.drain?_eq (h : f.Received) : f.drain? isBlank = some (f.finish isBlank, {}) := by
  obtain ⟨ps, rfl⟩ := h
  rw [drain?_pushAll, finish_pushAll]

/-- The range of a field that has received characters begins and ends between them. -/
theorem Received.range (h : f.Received) {start stop : Nat} (hkept : f.kept = some (start, stop)) :
    ∃ before range after, f.text.toList = before ++ range ++ after
      ∧ start = Text.byteSize before ∧ stop = Text.byteSize (before ++ range) := by
  obtain ⟨ps, rfl⟩ := h
  rcases ranges_pushAll ps with ⟨hnone, -⟩ | ⟨before, range, after, hsome, hps, -, -, -, -⟩
  · rw [hnone] at hkept
    cases hkept
  · rw [hsome] at hkept
    obtain ⟨rfl, rfl⟩ := Prod.mk.inj (Option.some.inj hkept)
    refine ⟨before.map Prod.fst, range.map Prod.fst, after.map Prod.fst, ?_, rfl, ?_⟩
    · rw [text_pushAll, hps, List.map_append, List.map_append]
    · rw [List.map_append]

/-- A range that begins inside a character. -/
example : drain? Text.isPlainBlank { text := "é", kept := some (1, 2) } = none := by decide

end Field

namespace Collector

variable {o : Options} {c : Collector}

theorem drainAnyM_drain? {f : Option Field} (hf : ∀ g, f = some g → g.Received) :
    drainAnyM (·.drain? c.options.isBlank) f = some (f.map c.textOf) := by
  cases f with
  | none => rfl
  | some g =>
    rw [drainAnyM, (hf g rfl).drain?_eq]
    rfl

section Received

variable (h : c.EachField o Field.Received)
include h

theorem finishSegmentM_drain? :
    c.finishSegmentM (·.drain? c.options.isBlank) = some c.finishSegment := by
  rw [finishSegmentM, h.nodeType.drain?_eq, drainAnyM_drain? h.nodeName, finishSegment_eq]
  rfl

theorem finishPropertyM_drain? :
    c.finishPropertyM (·.drain? c.options.isBlank) = some c.finishProperty := by
  rw [finishPropertyM, h.name.drain?_eq, drainAnyM_drain? h.value, finishProperty_eq]
  rfl

theorem leaveM_drain? (l : Label) (x : Option Char) :
    c.leaveM (·.drain? c.options.isBlank) l x = some (c.leave l x) := by
  have hd : EachField o Field.Received { c with stack := c.stack.tail } := { h with }
  cases l
  case node =>
    rw [leaveM, finishSegmentM_drain? hd]
    rfl
  case operationName =>
    rw [leaveM, h.operation.drain?_eq, leave_operationName]
    split <;> rfl
  case property =>
    rw [leaveM, finishPropertyM_drain? hd]
    rfl
  case outputRedirect =>
    rw [leaveM, h.target.drain?_eq]
    rfl
  all_goals rfl

theorem step?_eq (e : Event) : c.step? e = some (c.step e) := by
  cases e with
  | entered l n => rfl
  | character l ch n => rfl
  | leaving l n x => exact leaveM_drain? h l x

theorem foldlM_step?_eq (es : List Event) : es.foldlM step? c = some (es.foldl step c) := by
  induction es generalizing c with
  | nil => rfl
  | cons e es ih =>
    rw [List.foldlM_cons, step?_eq h e]
    exact ih (h.step .empty fun _ ch _ _ f keep hf => hf.push ch keep)

end Received

end Collector

/-- A field that has received characters gives all of them but the blanks at both ends that need
not be kept, and is empty after that. Its range begins and ends between its characters. So the
collector can make every cut, whatever its events are and in whatever order they come. -/
theorem trimming_is_exact_and_safe (o : Options) :
    (∀ ps, (Field.pushAll ps).finish o.isBlank = String.ofList (Text.trimLoose o.isBlank ps)
      ∧ (Field.pushAll ps).drain? o.isBlank = some ((Field.pushAll ps).finish o.isBlank, {}))
    ∧ (∀ ps start stop, (Field.pushAll ps).kept = some (start, stop) →
        ∃ before range after, (Field.pushAll ps).text.toList = before ++ range ++ after
          ∧ start = Text.byteSize before ∧ stop = Text.byteSize (before ++ range))
    ∧ ∀ es : List Event, es.foldlM Collector.step? { options := o }
        = some (es.foldl Collector.step { options := o }) :=
  ⟨fun ps => ⟨Field.finish_pushAll o.isBlank ps, Field.Received.drain?_eq ⟨ps, rfl⟩⟩,
    fun ps _ _ => Field.Received.range ⟨ps, rfl⟩, Collector.foldlM_step?_eq (.start .empty)⟩

/-- A kept blank of three bytes in the middle, and events that no line has. -/
theorem trimming_around_wide_blank :
    let o : Options := { unicodeBlanks := true }
    let ps := [(' ', false), ('é', false), ('\u3000', true), (' ', false), ('x', true),
      ('\u3000', false)]
    let es : List Event := [.leaving .node 0 none, .entered .propertyValue 9,
      .character .quotes '\u3000' 3, .leaving .property 1 (some ','),
      .character .outputTarget 'x' 0, .leaving .outputRedirect 0 none]
    (Field.pushAll ps).finish o.isBlank = "é\u3000 x" ∧ (Field.pushAll ps).kept = some (3, 8)
      ∧ (∃ before range after, (Field.pushAll ps).text.toList = before ++ range ++ after
        ∧ 3 = Text.byteSize before ∧ 8 = Text.byteSize (before ++ range))
      ∧ (es.foldlM Collector.step? { options := o }).isSome := by
  intro o ps es
  obtain ⟨htext, hrange, hsafe⟩ := trimming_is_exact_and_safe o
  have hkept : (Field.pushAll ps).kept = some (3, 8) := by decide
  refine ⟨(htext ps).1.trans ?_, hkept, hrange ps 3 8 hkept, ?_⟩
  · decide
  · rw [hsafe es]
    rfl

end RequestLine
