import RequestLine.Proofs.Language
import RequestLine.Proofs.Refusal
import RequestLine.Proofs.Closing

/-!
# Accepted lines

`Grammar.rest` is the language of what is left to read at a place; it is a concatenation along the
open states. A character takes the language at a place to the one at the next place
(`Grammar.cons_mem_rest`), and a line may end where nothing has to be left
(`Grammar.nil_mem_rest`). So a line is accepted if and only if it is a word of the grammar.
-/

open scoped Computability

namespace RequestLine

namespace Grammar

section Rest

variable (o : Options)

def afterList : Language Char := blanks o * maybe (redirect o)

def afterOperation : Language Char := maybe (propertyList o) * afterList o

def afterAddress : Language Char := maybe (operation o) * afterOperation o

def afterSegment : Language Char := (mark '/' * segment o)∗ * afterAddress o

def afterProperty : Language Char := (mark ',' * property o)∗ * (mark ')' * afterList o)

def textRest : Owner → Language Char
  | .node _ => text o
  | .nodeName _ _ => text o
  | .property _ _ => name o
  | .propertyValue _ _ _ => value o

def afterText : Owner → Language Char
  | .node _ => maybe (mark '=' * text o) * afterSegment o
  | .nodeName _ _ => afterSegment o
  | .property _ _ => maybe (mark '=' * value o) * afterProperty o
  | .propertyValue _ _ _ => afterProperty o

/-- What is left to read at a place. -/
def rest : Place → Language Char
  | .start => line o
  | .text w .none => textRest o w * afterText o w
  | .text w (.escape _) => (one fun _ => True) * (textRest o w * afterText o w)
  | .text w (.quotes _) => quotedRest o * (textRest o w * afterText o w)
  | .text w (.quotesEscape _ _) =>
    (one fun _ => True) * (quotedRest o * (textRest o w * afterText o w))
  | .literal _ _ _ b _ depth => closing b depth * (value o * afterProperty o)
  | .operation f =>
    (if f.forwarded = 0 then operationName o else (one OperationChar)∗) * afterOperation o
  | .list _ => property o * afterProperty o
  | .requestEnd _ => afterList o
  | .redirect f => (if f.forwarded = 0 then maybe (mark '>') else 1) * target o
  | .target _ g => if g.forwarded = 0 then inked o else (one fun _ => True)∗

end Rest

section Step

variable {o : Options} {c : Char} {cs : List Char}

theorem cons_mem_afterList : c :: cs ∈ afterList o ↔
    (o.isBlank c = true ∧ cs ∈ afterList o) ∨ (c = '>' ∧ cs ∈ maybe (mark '>') * target o) := by
  have hone : c :: cs ∉ (1 : Language Char) := List.cons_ne_nil c cs
  have hred : c :: cs ∈ maybe (redirect o) ↔ c = '>' ∧ cs ∈ maybe (mark '>') * target o := by
    rw [maybe, Language.mem_add, or_iff_right hone, redirect, mul_assoc, cons_mem_mark_mul]
  rw [afterList, cons_mem_blanks_mul, hred, or_comm]

theorem cons_mem_afterOperation : c :: cs ∈ afterOperation o ↔
    c :: cs ∈ afterList o ∨ (c = '(' ∧ cs ∈ property o * afterProperty o) := by
  rw [afterOperation, mem_maybe_mul, propertyList, mul_assoc, mul_assoc, mul_assoc,
    cons_mem_mark_mul, afterProperty]

theorem cons_mem_afterAddress : c :: cs ∈ afterAddress o ↔
    c :: cs ∈ afterOperation o ∨ (c = ':' ∧ cs ∈ operationName o * afterOperation o) := by
  rw [afterAddress, mem_maybe_mul, operation, mul_assoc, cons_mem_mark_mul]

theorem cons_mem_afterSegment : c :: cs ∈ afterSegment o ↔
    c :: cs ∈ afterAddress o ∨
      (c = '/' ∧ cs ∈ text o * (maybe (mark '=' * text o) * afterSegment o)) := by
  rw [afterSegment, mem_kstar_mul, mul_assoc, cons_mem_mark_mul, segment, mul_assoc]

theorem cons_mem_afterProperty : c :: cs ∈ afterProperty o ↔
    (c = ')' ∧ cs ∈ afterList o) ∨ (c = ',' ∧ cs ∈ property o * afterProperty o) := by
  rw [afterProperty, mem_kstar_mul, cons_mem_mark_mul, mul_assoc, cons_mem_mark_mul]

theorem cons_mem_afterSegment_of_notMem (hc : c ∉ ['/', ':', '(', '>']) :
    c :: cs ∈ afterSegment o ↔ o.isBlank c = true ∧ cs ∈ afterList o := by
  simp only [List.mem_cons, List.not_mem_nil, or_false, not_or] at hc
  rw [cons_mem_afterSegment, cons_mem_afterAddress, cons_mem_afterOperation, cons_mem_afterList]
  simp [hc]

theorem nil_mem_afterList : [] ∈ afterList o :=
  nil_mem_mul.mpr ⟨Language.nil_mem_kstar _, nil_mem_maybe⟩

theorem afterOperation_of_afterList {w : List Char} (h : w ∈ afterList o) : w ∈ afterOperation o :=
  mem_maybe_mul.mpr (.inl h)

theorem afterAddress_of_afterOperation {w : List Char} (h : w ∈ afterOperation o) :
    w ∈ afterAddress o :=
  mem_maybe_mul.mpr (.inl h)

theorem afterSegment_of_afterAddress {w : List Char} (h : w ∈ afterAddress o) :
    w ∈ afterSegment o :=
  mem_kstar_mul.mpr (.inl h)

/-- The word `w` may be left after the move. -/
def Leads (o : Options) (move : Place.Move) (w : List Char) : Prop :=
  ∃ q, move.2 = .ok q ∧ w ∈ rest o q

@[simp] theorem leads_ok {es : List Event} {q : Place} {w : List Char} :
    Leads o (es, .ok q) w ↔ w ∈ rest o q := by
  simp [Leads]

@[simp] theorem leads_error {es : List Event} {e : ParseError} {w : List Char} :
    ¬ Leads o (es, .error e) w := by
  simp [Leads]

@[simp] theorem leads_unexpected {l : Label} {n : Nat} {w : List Char} :
    ¬ Leads o (Place.unexpected l n c) w :=
  leads_error

@[simp] theorem leads_after {es : List Event} {move : Place.Move} {w : List Char} :
    Leads o (Place.after es move) w ↔ Leads o move w :=
  Iff.rfl

theorem leads_endSegment {n : Nat} (hc : c = '/' ∨ c = ':' ∨ c = '(' ∨ c = '>') :
    c :: cs ∈ afterSegment o ↔ Leads o (Place.endSegment n c) cs := by
  have hb : o.isBlank c = false :=
    o.isBlank_of_isMark (by rcases hc with rfl | rfl | rfl | rfl <;> rfl)
  rw [cons_mem_afterSegment, cons_mem_afterAddress, cons_mem_afterOperation, cons_mem_afterList]
  rcases hc with rfl | rfl | rfl | rfl <;>
    simp [Place.endSegment, rest, textRest, afterText, hb]

theorem leads_endProperty {n : Nat} {f : Opening} (hc : c = ',' ∨ c = ')') :
    c :: cs ∈ afterProperty o ↔ Leads o (Place.endProperty n c f) cs := by
  rw [cons_mem_afterProperty]
  rcases hc with rfl | rfl <;>
    simp [Place.endProperty, Place.endList, rest, textRest, afterText, property, mul_assoc]

theorem cons_mem_textRest_of_mark {w : Owner} {m : Language Char} (hc : c ∈ w.marks)
    (hw : ∀ f g v, w ≠ .propertyValue f g v) : c :: cs ∈ textRest o w * m ↔ c :: cs ∈ m := by
  have hq : c ≠ '"' := by
    rintro rfl
    cases w <;> simp [Owner.marks] at hc
  have hs : c ≠ '\\' := by
    rintro rfl
    cases w <;> simp [Owner.marks] at hc
  have htokens : c :: cs ∈ (token o w.marks)∗ * m ↔ c :: cs ∈ m := by
    rw [cons_mem_tokens_mul]
    simp [Plain, hc, hq, hs]
  cases w with
  | propertyValue f g v => exact absurd rfl (hw f g v)
  | node f => exact htokens
  | nodeName f g => exact htokens
  | property f g => exact htokens

theorem leads_onMark {n : Nat} {w : Owner} (hc : c ∈ w.marks) :
    c :: cs ∈ textRest o w * afterText o w ↔ Leads o (Place.onMark n c w) cs := by
  have hb : o.isBlank c = false := o.isBlank_of_isMark (Owner.isMark_of_mem_marks hc)
  cases w with
  | node f =>
    rw [cons_mem_textRest_of_mark hc (by simp), afterText, mem_maybe_mul, mul_assoc,
      cons_mem_mark_mul]
    simp only [Owner.marks, List.mem_cons, List.not_mem_nil, or_false] at hc
    by_cases he : c = '='
    · subst he
      simp [Place.onMark, rest, textRest, afterText, cons_mem_afterSegment_of_notMem, hb]
    by_cases hp : c = ')'
    · subst hp
      simp [Place.onMark, cons_mem_afterSegment_of_notMem, hb]
    · simp only [Place.onMark, if_neg he, if_neg hp]
      rw [← leads_endSegment (by grind)]
      simp [he]
  | nodeName f g =>
    rw [cons_mem_textRest_of_mark hc (by simp), afterText]
    simp only [Owner.marks, List.mem_cons, List.not_mem_nil, or_false] at hc
    by_cases he : c = '='
    · subst he
      simp [Place.onMark, cons_mem_afterSegment_of_notMem, hb]
    by_cases hp : c = ')'
    · subst hp
      simp [Place.onMark, cons_mem_afterSegment_of_notMem, hb]
    · simp only [Place.onMark, if_neg he, if_neg hp, leads_after]
      exact leads_endSegment (by grind)
  | property f g =>
    rw [cons_mem_textRest_of_mark hc (by simp), afterText, mem_maybe_mul, mul_assoc,
      cons_mem_mark_mul]
    simp only [Owner.marks, List.mem_cons, List.not_mem_nil, or_false] at hc
    by_cases he : c = '='
    · subst he
      simp [Place.onMark, rest, textRest, afterText, cons_mem_afterProperty]
    · simp only [Place.onMark, if_neg he]
      rw [← leads_endProperty (by grind)]
      simp [he]
  | propertyValue f g v =>
    simp only [textRest, afterText]
    simp only [Place.onMark]
    split
    · rename_i b hbr
      obtain rfl := Bracket.ofOpener?_eq_some_iff.mp hbr
      have hno : b.opener :: cs ∉ afterProperty o := by
        rw [cons_mem_afterProperty]
        cases b <;> simp [Bracket.opener]
      have hopener : ∀ d : Bracket, b.opener = d.opener ↔ b = d := by
        intro d
        rw [← Bracket.ofOpener?_eq_some_iff, Bracket.ofOpener?_opener, Option.some.injEq]
      have hplain : ¬ Plain o [',', ')', '[', '{', '('] b.opener := fun h => h.1 hc
      have hq : b.opener ≠ '"' ∧ b.opener ≠ '\\' := by cases b <;> decide
      rw [cons_mem_value_mul]
      simp [rest, hno, hopener, hplain, hq]
    · rename_i hbr
      have hopener : ∀ d : Bracket, c ≠ d.opener := by
        intro d hd
        rw [Bracket.ofOpener?_eq_some_iff.mpr hd] at hbr
        cases hbr
      have hc' : c = ',' ∨ c = ')' := by
        have h₁ := hopener .brackets
        have h₂ := hopener .braces
        have h₃ := hopener .parens
        simp only [Bracket.opener, Owner.marks, List.mem_cons, List.not_mem_nil, or_false] at *
        grind
      have hplain : ¬ Plain o [',', ')', '[', '{', '('] c := fun h => h.1 hc
      have hq : c ≠ '"' ∧ c ≠ '\\' := by rcases hc' with rfl | rfl <;> decide
      rw [leads_after, ← leads_endProperty hc', cons_mem_value_mul]
      simp [hopener, hplain, hq]

/-- What comes after a text begins with a mark of its owner, or with a blank that could belong to
the text as well. -/
theorem mem_of_cons_mem_afterText {w : Owner} (hc : c ∉ w.marks) (h : c :: cs ∈ afterText o w) :
    o.isBlank c = true ∧ cs ∈ textRest o w * afterText o w := by
  have hsegment : c ∉ ['/', ':', '(', '>'] → c :: cs ∈ afterSegment o →
      o.isBlank c = true ∧ cs ∈ afterSegment o := by
    intro hc' h'
    obtain ⟨hb, hcs⟩ := (cons_mem_afterSegment_of_notMem hc').mp h'
    exact ⟨hb, afterSegment_of_afterAddress (afterAddress_of_afterOperation
      (afterOperation_of_afterList hcs))⟩
  cases w with
  | node f =>
    rw [afterText, mem_maybe_mul, mul_assoc, cons_mem_mark_mul] at h
    simp only [Owner.marks, List.mem_cons, List.not_mem_nil, or_false, not_or] at hc
    obtain ⟨hb, hcs⟩ := hsegment (by simp [hc]) (by simpa [hc] using h)
    exact ⟨hb, mem_kstar_mul.mpr (.inl (mem_maybe_mul.mpr (.inl hcs)))⟩
  | nodeName f g =>
    simp only [Owner.marks, List.mem_cons, List.not_mem_nil, or_false, not_or] at hc
    obtain ⟨hb, hcs⟩ := hsegment (by simp [hc]) h
    exact ⟨hb, mem_kstar_mul.mpr (.inl hcs)⟩
  | property f g =>
    rw [afterText, mem_maybe_mul, mul_assoc, cons_mem_mark_mul, cons_mem_afterProperty] at h
    simp_all [Owner.marks]
  | propertyValue f g v =>
    rw [afterText, cons_mem_afterProperty] at h
    simp_all [Owner.marks]

theorem cons_mem_textRest_of_notMem {w : Owner} (hc : c ∉ w.marks) :
    c :: cs ∈ textRest o w * afterText o w ↔
      (c = '"' ∧ cs ∈ quotedRest o * (textRest o w * afterText o w)) ∨
      ((c = '\\' ∧ o.escapeRule = .backslash) ∧
        cs ∈ (one fun _ => True) * (textRest o w * afterText o w)) ∨
      ((c ≠ '"' ∧ ¬ (c = '\\' ∧ o.escapeRule = .backslash)) ∧
        cs ∈ textRest o w * afterText o w) := by
  have hafter : c :: cs ∈ afterText o w → (c ≠ '"' ∧ ¬ (c = '\\' ∧ o.escapeRule = .backslash)) ∧
      cs ∈ textRest o w * afterText o w := by
    intro h
    obtain ⟨hb, hcs⟩ := mem_of_cons_mem_afterText hc h
    refine ⟨⟨?_, ?_⟩, hcs⟩
    · rintro rfl
      rw [o.isBlank_of_isMark rfl] at hb
      cases hb
    · rintro ⟨rfl, -⟩
      rw [o.isBlank_of_isMark rfl] at hb
      cases hb
  have hplain : Plain o w.marks c ↔ c ≠ '"' ∧ ¬ (c = '\\' ∧ o.escapeRule = .backslash) :=
    and_iff_right hc
  have htokens : textRest o w = (token o w.marks)∗ →
      (c :: cs ∈ textRest o w * afterText o w ↔
        (c = '"' ∧ cs ∈ quotedRest o * (textRest o w * afterText o w)) ∨
        ((c = '\\' ∧ o.escapeRule = .backslash) ∧
          cs ∈ (one fun _ => True) * (textRest o w * afterText o w)) ∨
        ((c ≠ '"' ∧ ¬ (c = '\\' ∧ o.escapeRule = .backslash)) ∧
          cs ∈ textRest o w * afterText o w)) := by
    intro ht
    rw [ht] at hafter ⊢
    rw [cons_mem_tokens_mul, hplain]
    exact or_iff_right_of_imp fun h => .inr (.inr (hafter h))
  cases w with
  | node f => exact htokens rfl
  | nodeName f g => exact htokens rfl
  | property f g => exact htokens rfl
  | propertyValue f g v =>
    have hopener : ∀ b : Bracket, c ≠ b.opener := by
      rintro b rfl
      cases b <;> simp [Owner.marks, Bracket.opener] at hc
    simp only [textRest] at hafter ⊢
    rw [cons_mem_value_mul]
    rw [Owner.marks] at hplain
    simp only [hplain, hopener, false_and, exists_false, or_false]
    exact or_iff_right_of_imp fun h => .inr (.inr (hafter h))

theorem leads_onText {n : Nat} {w : Owner} :
    c :: cs ∈ textRest o w * afterText o w ↔ Leads o (Place.onText o n c w) cs := by
  by_cases hm : c ∈ w.marks
  · rw [Place.onText_of_mark hm, leads_onMark hm]
  rw [cons_mem_textRest_of_notMem hm]
  unfold Place.onText
  split
  · rename_i hb
    simp only [Bool.and_eq_true] at hb
    have hq : c ≠ '"' := by
      rintro rfl
      rw [o.isBlank_of_isMark rfl] at hb
      cases hb.1
    have hs : c ≠ '\\' := by
      rintro rfl
      rw [o.isBlank_of_isMark rfl] at hb
      cases hb.1
    simp [rest, hq, hs]
  split
  · rename_i hq
    subst hq
    simp [rest]
  split
  · rename_i hb
    simp only [Bool.and_eq_true, decide_eq_true_eq] at hb
    simp [rest, hb]
  · rename_i hq hb
    have hrest : textRest o w.counted * afterText o w.counted = textRest o w * afterText o w := by
      cases w <;> rfl
    simp only [Bool.and_eq_true, decide_eq_true_eq] at hb
    simp [rest, hq, hb, hrest]

theorem leads_onQuoted {n : Nat} {w : Owner} {q : Opening} :
    c :: cs ∈ rest o (.text w (.quotes q)) ↔ Leads o (Place.onQuoted o n c w q) cs := by
  rw [rest, cons_mem_quotedRest_mul]
  unfold Place.onQuoted
  split
  · rename_i hq
    subst hq
    simp [rest, Plain]
  split
  · rename_i hb
    simp only [Bool.and_eq_true, decide_eq_true_eq] at hb
    simp [rest, Plain, hb]
  · rename_i hq hb
    simp only [Bool.and_eq_true, decide_eq_true_eq] at hb
    simp [rest, Plain, hq, hb]

theorem leads_onLiteral {n : Nat} {f g v q : Opening} {b : Bracket} {depth : Nat} :
    c :: cs ∈ rest o (.literal f g v b q depth) ↔
      Leads o (Place.onLiteral n c f g v b q depth) cs := by
  rw [rest, cons_mem_closing_mul]
  unfold Place.onLiteral
  split
  · simp [rest]
  split
  · split
    · simp [rest]
    · simp [rest, textRest, afterText]
  · simp [rest]

theorem leads_endOperation {n : Nat} {f : Opening} {l : Label} {q : Place} {w : List Char} :
    Leads o (Place.endOperation n c f l q) w ↔ f.forwarded ≠ 0 ∧ w ∈ rest o q := by
  unfold Place.endOperation
  split
  · rename_i hf
    simp [hf]
  · rename_i hf
    simp [hf]

theorem leads_onOperation {n : Nat} {f : Opening} :
    c :: cs ∈ rest o (.operation f) ↔ Leads o (Place.onOperation o n c f) cs := by
  have hmark : Text.isMark c = true → o.isBlank c = false := o.isBlank_of_isMark
  have hcount : cs ∈ rest o (.operation f.counted) ↔
      cs ∈ (one OperationChar)∗ * afterOperation o := by
    simp [rest, Opening.counted]
  have hleft : c :: cs ∈ rest o (.operation f) ↔
      (f.forwarded ≠ 0 ∧ c :: cs ∈ afterOperation o) ∨
      (OperationChar c ∧ if f.forwarded = 0 ∧ o.isBlank c = true then cs ∈ rest o (.operation f)
        else cs ∈ rest o (.operation f.counted)) := by
    rw [hcount]
    by_cases hf : f.forwarded = 0
    · simp only [rest, hf, if_true, cons_mem_operationName_mul, ne_eq, not_true_eq_false,
        false_and, false_or, true_and]
    · simp only [rest, hf, if_false, ne_eq, not_false_eq_true, true_and, false_and]
      rw [mem_kstar_mul, cons_mem_one_mul]
  have hafter : c :: cs ∈ afterOperation o ↔ (o.isBlank c = true ∧ cs ∈ afterList o) ∨
      (c = '>' ∧ cs ∈ maybe (mark '>') * target o) ∨
      (c = '(' ∧ cs ∈ property o * afterProperty o) := by
    rw [cons_mem_afterOperation, cons_mem_afterList, or_assoc]
  rw [hleft, hafter]
  by_cases hskip : o.isBlank c = true ∧ f.forwarded = 0
  · have hop : OperationChar c := by
      intro hm
      simp only [List.mem_cons, List.not_mem_nil, or_false] at hm
      rw [hmark (by rcases hm with rfl | rfl | rfl | rfl | rfl | rfl <;> rfl)] at hskip
      cases hskip.1
    simp [Place.onOperation, hskip, hop]
  have hskip' : ¬ (f.forwarded = 0 ∧ o.isBlank c = true) := fun h => hskip h.symm
  have hskip'' : (o.isBlank c && decide (f.forwarded = 0)) = false := by
    simpa using hskip
  simp only [Place.onOperation, hskip'', Bool.false_eq_true, if_false, if_neg hskip']
  split
  · rename_i hc
    subst hc
    rw [leads_endOperation]
    simp [hmark, Text.isMark, OperationChar, rest]
  split
  · rename_i hc
    subst hc
    rw [leads_endOperation]
    simp [hmark, Text.isMark, OperationChar, rest]
  split
  · rename_i hc
    simp only [List.mem_cons, List.not_mem_nil, or_false] at hc
    rcases hc with rfl | rfl | rfl | rfl <;> simp [hmark, Text.isMark, OperationChar]
  · rename_i h₁ h₂ h₃
    have hop : OperationChar c := by
      simp only [OperationChar, List.mem_cons, List.not_mem_nil, or_false] at h₃ ⊢
      grind
    have habsorb : cs ∈ afterList o → cs ∈ rest o (.operation f.counted) := fun h =>
      hcount.mpr (mem_kstar_mul.mpr (.inl (afterOperation_of_afterList h)))
    simp only [leads_ok, hop, true_and, h₁, h₂, false_and, or_false]
    exact or_iff_right_of_imp fun h => habsorb h.2.2

theorem leads_onTarget {n : Nat} {f g : Opening} :
    c :: cs ∈ rest o (.target f g) ↔ Leads o (Place.onTarget o n c f g) cs := by
  have hcount : cs ∈ rest o (.target f g.counted) := by
    rw [rest, Opening.counted, if_neg (Nat.succ_ne_zero _)]
    exact mem_kstar_one.mpr fun _ _ => trivial
  unfold Place.onTarget
  by_cases hg : g.forwarded = 0
  · rw [rest, if_pos hg, cons_mem_inked]
    split
    · rename_i hb
      simp only [hg, decide_true, Bool.and_true] at hb
      simp [rest, hg, hb]
    · rename_i hb
      simp only [hg, decide_true, Bool.and_true, Bool.not_eq_true] at hb
      simp [hcount, hb]
  · have hall : c :: cs ∈ rest o (.target f g) := by
      rw [rest, if_neg hg]
      exact mem_kstar_one.mpr fun _ _ => trivial
    simp [hg, hcount, hall]

theorem leads_requestEnd {n : Nat} {f : Opening} :
    c :: cs ∈ rest o (.requestEnd f) ↔ Leads o (Place.next o n c (.requestEnd f)) cs := by
  rw [rest, cons_mem_afterList]
  simp only [Place.next]
  split
  · rename_i hb
    have hne : c ≠ '>' := by
      rintro rfl
      rw [o.isBlank_of_isMark rfl] at hb
      cases hb
    simp [rest, hb, hne]
  · rename_i hb
    split
    · rename_i hc
      subst hc
      simp [rest, hb]
    · rename_i hc
      simp [hb, hc]

theorem leads_redirect {n : Nat} {f : Opening} :
    c :: cs ∈ rest o (.redirect f) ↔ Leads o (Place.next o n c (.redirect f)) cs := by
  have hleft : c :: cs ∈ rest o (.redirect f) ↔
      c :: cs ∈ target o ∨ (f.forwarded = 0 ∧ c = '>' ∧ cs ∈ target o) := by
    by_cases hf : f.forwarded = 0
    · simp only [rest, hf, if_true, mem_maybe_mul, cons_mem_mark_mul, true_and]
    · simp only [rest, hf, if_false, one_mul, false_and, or_false]
  rw [hleft, cons_mem_target]
  simp only [Place.next]
  split
  · rename_i hc
    subst hc
    split
    · rename_i hf
      simp [rest, Opening.counted, hf]
    · rename_i hf
      simp [hf]
  · rename_i hc
    rw [leads_after, ← leads_onTarget, rest, if_pos rfl, cons_mem_inked]
    simp [hc]

/-- A blank in a text only brings what is left nearer. -/
theorem cons_mem_textRest_of_blank {w : Owner} (hb : o.isBlank c = true) :
    c :: cs ∈ textRest o w * afterText o w ↔ cs ∈ textRest o w * afterText o w := by
  have hm : ∀ d, Text.isMark d = true → c ≠ d := by
    rintro d hd rfl
    rw [o.isBlank_of_isMark hd] at hb
    cases hb
  have hmarks : c ∉ w.marks := fun h => hm c (Owner.isMark_of_mem_marks h) rfl
  rw [cons_mem_textRest_of_notMem hmarks]
  simp [hm '"' rfl, hm '\\' rfl]

theorem rest_list {f g : Opening} :
    rest o (.list f) = textRest o (.property f g) * afterText o (.property f g) := by
  rw [rest, property, mul_assoc]
  rfl

theorem leads_list {n : Nat} {f : Opening} :
    c :: cs ∈ rest o (.list f) ↔ Leads o (Place.next o n c (.list f)) cs := by
  have hlist := rest_list (o := o) (f := f) (g := { offset := n, opener := c })
  simp only [Place.next]
  split
  · rename_i hb
    rw [leads_ok, hlist, cons_mem_textRest_of_blank hb]
  · rw [hlist, leads_onText (n := n)]
    split
    · rename_i hc
      subst hc
      rw [Place.onText_of_mark (by simp [Owner.marks])]
      simp [Place.onMark, Place.endProperty]
    · rw [leads_after]

theorem line_eq (o : Options) : line o = blanks o * (maybe (address o) * afterAddress o) := by
  simp only [line, afterAddress, afterOperation, afterList, mul_assoc]

/-- A line is an address with what follows it, of which all may be missing. -/
theorem mem_address {f : Opening} {w : List Char} : w ∈ maybe (address o) * afterAddress o ↔
    w ∈ rest o (.text (.node f) .none) ∨ w ∈ mark '/' * rest o (.text (.node f) .none) := by
  have hnode : rest o (.text (.node f) .none) = segment o * afterSegment o := by
    rw [segment, mul_assoc]
    rfl
  have haddress : address o * afterAddress o = maybe (mark '/') * (segment o * afterSegment o) := by
    simp only [address, afterSegment, mul_assoc]
  have hempty : w ∈ afterAddress o → w ∈ segment o * afterSegment o := by
    intro h
    rw [← hnode]
    exact mem_kstar_mul.mpr (.inl (mem_maybe_mul.mpr (.inl (afterSegment_of_afterAddress h))))
  rw [mem_maybe_mul, haddress, mem_maybe_mul, hnode]
  exact or_iff_right_of_imp fun h => .inl (hempty h)

theorem leads_start {n : Nat} : c :: cs ∈ rest o .start ↔ Leads o (Place.next o n c .start) cs := by
  have hnode : c :: cs ∈ rest o (.text (.node { offset := n, opener := c }) .none) ↔
      Leads o (Place.onText o n c (.node { offset := n, opener := c })) cs := leads_onText
  have hmark : c ∈ (Owner.node { offset := n, opener := c }).marks →
      (c :: cs ∈ rest o (.text (.node { offset := n, opener := c }) .none) ↔
        Leads o (Place.onMark n c (.node { offset := n, opener := c })) cs) := leads_onMark
  rw [rest, line_eq, cons_mem_blanks_mul, mem_address (f := { offset := n, opener := c }),
    cons_mem_mark_mul]
  simp only [Place.next]
  split
  · rename_i hb
    have hne : c ≠ '/' := by
      rintro rfl
      rw [o.isBlank_of_isMark rfl] at hb
      cases hb
    have hstay : c :: cs ∈ rest o (.text (.node { offset := n, opener := c }) .none) ↔
        cs ∈ rest o (.text (.node { offset := n, opener := c }) .none) :=
      cons_mem_textRest_of_blank hb
    have hstart : cs ∈ rest o (.text (.node { offset := n, opener := c }) .none) →
        cs ∈ blanks o * (maybe (address o) * afterAddress o) := fun h =>
      mem_kstar_mul.mpr (.inl (mem_address.mpr (.inl h)))
    rw [leads_ok, rest, line_eq, hstay]
    simp only [hne, false_and, or_false, hb, true_and]
    exact or_iff_right_of_imp hstart
  · rename_i hb
    simp only [hb, Bool.false_eq_true, false_and, or_false]
    split
    · rename_i hc
      subst hc
      have hstep := hmark (by simp [Owner.marks])
      simp only [Place.onMark, Place.endSegment] at hstep
      rw [hstep]
      simp [rest, textRest, afterText]
    rename_i hslash
    simp only [hslash, false_and, or_false]
    split
    · rename_i hc
      subst hc
      exact hmark (by simp [Owner.marks])
    split
    · rename_i hc
      subst hc
      exact hmark (by simp [Owner.marks])
    split
    · rename_i hc
      subst hc
      exact hmark (by simp [Owner.marks])
    · exact hnode

end Step

/-- A character takes what is left at a place to what is left at the next one. -/
theorem cons_mem_rest {o : Options} {c : Char} {cs : List Char} (n : Nat) (p : Place) :
    c :: cs ∈ rest o p ↔ Leads o (p.next o n c) cs := by
  cases p with
  | start => exact leads_start
  | text w s =>
    cases s with
    | none => exact leads_onText
    | escape e =>
      rw [rest, cons_mem_one_mul]
      simp [Place.next, Place.onEscaped, rest]
    | quotes q => exact leads_onQuoted
    | quotesEscape q e =>
      rw [rest, cons_mem_one_mul]
      simp [Place.next, Place.onEscaped, rest]
  | literal f g v b q depth => exact leads_onLiteral
  | operation f => exact leads_onOperation
  | list f => exact leads_list
  | requestEnd f => exact leads_requestEnd
  | redirect f => exact leads_redirect
  | target f g => exact leads_onTarget

/-- The line may end at a place if and only if nothing has to be left there. -/
theorem nil_mem_rest {o : Options} (n : Nat) (p : Place) :
    [] ∈ rest o p ↔ (p.finish o n).2 = none := by
  have hoperation : [] ∈ afterOperation o := afterOperation_of_afterList nil_mem_afterList
  have hsegment : [] ∈ afterSegment o :=
    afterSegment_of_afterAddress (afterAddress_of_afterOperation hoperation)
  have hproperty : [] ∉ afterProperty o := fun h =>
    nil_notMem_mark (nil_mem_mul.mp (nil_mem_mul.mp h).2).1
  cases p with
  | start =>
    have hline : [] ∈ line o := by
      rw [line_eq]
      exact nil_mem_mul.mpr ⟨Language.nil_mem_kstar _, nil_mem_mul.mpr ⟨nil_mem_maybe,
        afterAddress_of_afterOperation hoperation⟩⟩
    simp [rest, Place.finish, hline]
  | text w s =>
    cases s with
    | none =>
      cases w <;> simp [rest, textRest, afterText, text, Place.finish, Place.finishText,
        Place.finishList, nil_mem_mul, nil_mem_maybe, Language.nil_mem_kstar, hsegment, hproperty]
    | escape e => simp [rest, nil_mem_mul, nil_notMem_one, Place.finish, Place.cutOff]
    | quotes q =>
      simp [rest, quotedRest, nil_mem_mul, nil_notMem_mark, Place.finish, Place.cutOff]
    | quotesEscape q e => simp [rest, nil_mem_mul, nil_notMem_one, Place.finish, Place.cutOff]
  | literal f g v b q depth =>
    have hfinish : (Place.finish o n (.literal f g v b q depth)).2 ≠ none := by
      simp only [Place.finish]
      split <;> simp [Place.finishList, Place.cutOff]
    simp [rest, nil_mem_mul, nil_notMem_closing, hfinish]
  | operation f =>
    by_cases hf : f.forwarded = 0
    · simp [rest, Place.finish, hf, nil_mem_mul, nil_notMem_operationName]
    · simp [rest, Place.finish, hf, nil_mem_mul, Language.nil_mem_kstar, hoperation]
  | list f => simp [rest, nil_mem_mul, hproperty, Place.finish, Place.finishList]
  | requestEnd f => simp [rest, nil_mem_afterList, Place.finish]
  | redirect f =>
    have hrest : [] ∉ rest o (.redirect f) := fun h => nil_notMem_target (nil_mem_mul.mp h).2
    simp [hrest, Place.finish, Place.cutOff]
  | target f g =>
    by_cases hg : g.forwarded = 0
    · simp [rest, Place.finish, hg, nil_notMem_inked, Place.cutOff]
    · simp [rest, Place.finish, hg, Language.nil_mem_kstar]

/-- The places accept what the grammar says. -/
theorem read_accepts {o : Options} (n : Nat) (cs : List Char) (p : Place) :
    (p.read o n cs).2 = none ↔ cs ∈ rest o p := by
  induction cs generalizing n p with
  | nil =>
    rw [nil_mem_rest n]
    simp [Place.read, Place.feed, Place.delay]
  | cons c cs ih =>
    rw [cons_mem_rest n]
    rcases hnext : p.next o n c with ⟨es, e | q⟩
    · rw [Place.read_cons_of_error hnext]
      simp
    · rw [Place.read_cons hnext, leads_ok, ← ih (n + c.utf8Size) q]
      rfl

end Grammar

/-- A run into a sink that refuses nothing ends as the places say. -/
theorem Request.outcome_of_accepting {σ : Type} {S : Sink σ} (o : Options) (hS : S.Accepting)
    (line : String) (s : σ) :
    (Request.run o S line s).outcome
      = Place.verdict o (Place.read o 0 line.toList .start).2 := by
  obtain ⟨s', -, hrun⟩ := Request.run_of_accepting o hS line s
  rw [hrun]
  exact (Request.run_record o line).2

theorem Place.verdict_eq_ok_iff {o : Options} {e : Option ParseError} :
    Place.verdict o e = .ok () ↔ e = none := by
  cases e <;> simp [Place.verdict]

theorem Sink.ignore_accepting : Sink.ignore.Accepting :=
  fun _ s => ⟨s, rfl⟩

/-- With a sink that refuses nothing, exactly the lines of the grammar are accepted. -/
theorem run_ok_iff_mem_line {σ : Type} {S : Sink σ} (o : Options) (hS : S.Accepting)
    (line : String) (s : σ) :
    (Request.run o S line s).outcome = .ok () ↔ line.toList ∈ Grammar.line o := by
  rw [Request.outcome_of_accepting o hS, Place.verdict_eq_ok_iff, Grammar.read_accepts]
  rfl

/-- A line with a value that nests brackets is in the language; with a third `>` it is not. -/
theorem line_with_nested_brackets :
    "/a=b:c(d=[e[,)]f]) > g".toList ∈ Grammar.line {} ∧ "a>>>b".toList ∉ Grammar.line {} :=
  ⟨(run_ok_iff_mem_line {} Sink.ignore_accepting "/a=b:c(d=[e[,)]f]) > g" ()).mp
      (by decide +kernel),
    fun h => absurd ((run_ok_iff_mem_line {} Sink.ignore_accepting "a>>>b" ()).mpr h)
      (by decide +kernel)⟩

end RequestLine
