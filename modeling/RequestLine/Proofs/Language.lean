import RequestLine.Proofs.Place

/-!
# The language of request lines

The request lines as a formal language, built from its characters by union, concatenation and
iteration. What is blank and what a backslash means is up to the options. The second half says for
each part of the language what the first character of a word decides about the rest of it, in front
of any other language.
-/

open scoped Computability

namespace RequestLine

namespace Grammar

/-- The words of one character with the property `P`. -/
def one (P : Char → Prop) : Language Char := {w | ∃ c, P c ∧ w = [c]}

def mark (c : Char) : Language Char := one (· = c)

/-- A word of the language or nothing. -/
def maybe (l : Language Char) : Language Char := 1 + l

section Words

variable {P : Char → Prop} {c d : Char} {cs : List Char} {l m : Language Char}

theorem cons_mem_one_mul : c :: cs ∈ one P * m ↔ P c ∧ cs ∈ m := by
  constructor
  · rintro ⟨_, ⟨d, hd, rfl⟩, ys, hys, h⟩
    obtain ⟨rfl, rfl⟩ := List.cons.inj h
    exact ⟨hd, hys⟩
  · rintro ⟨hc, hcs⟩
    exact ⟨[c], ⟨c, hc, rfl⟩, cs, hcs, rfl⟩

theorem nil_mem_mul : [] ∈ l * m ↔ [] ∈ l ∧ [] ∈ m := by
  constructor
  · rintro ⟨xs, hxs, ys, hys, h⟩
    obtain ⟨rfl, rfl⟩ := List.append_eq_nil_iff.mp h
    exact ⟨hxs, hys⟩
  · rintro ⟨hl, hm⟩
    exact ⟨[], hl, [], hm, rfl⟩

theorem nil_notMem_one : [] ∉ one P := by
  rintro ⟨d, -, h⟩
  exact List.cons_ne_nil d [] h.symm

theorem nil_notMem_mark : [] ∉ mark d :=
  nil_notMem_one

theorem nil_mem_maybe : [] ∈ maybe l :=
  .inl rfl

theorem cons_mem_mark_mul : c :: cs ∈ mark d * m ↔ c = d ∧ cs ∈ m :=
  cons_mem_one_mul

theorem mem_maybe_mul {w : List Char} : w ∈ maybe l * m ↔ w ∈ m ∨ w ∈ l * m := by
  rw [maybe, add_mul, one_mul, Language.mem_add]

theorem mem_kstar_mul {α : Type} {l m : Language α} {w : List α} :
    w ∈ l∗ * m ↔ w ∈ m ∨ w ∈ l * (l∗ * m) := by
  rw [← mul_assoc, ← Language.mem_add]
  nth_rewrite 2 [← one_mul m]
  rw [← add_mul, Language.one_add_self_mul_kstar_eq_kstar]

theorem mem_add_mul {l' w : _} : w ∈ (l + l') * m ↔ w ∈ l * m ∨ w ∈ l' * m := by
  rw [add_mul, Language.mem_add]

theorem mem_kstar_one {w : List Char} : w ∈ (one P)∗ ↔ ∀ c ∈ w, P c := by
  induction w with
  | nil => simp [Language.nil_mem_kstar]
  | cons c w ih =>
    rw [← mul_one (one P)∗, mem_kstar_mul, cons_mem_one_mul, mul_one, ih]
    simp

end Words

section Rules

variable (o : Options)

def blanks : Language Char := (one fun c => o.isBlank c = true)∗

/-- A backslash and any one character, if a backslash protects. -/
def escape : Language Char :=
  if o.escapeRule = .backslash then mark '\\' * one fun _ => True else 0

/-- The character stands for itself where the marks `ms` do not. -/
def Plain (ms : List Char) (c : Char) : Prop :=
  c ∉ ms ∧ c ≠ '"' ∧ ¬ (c = '\\' ∧ o.escapeRule = .backslash)

def quoted : Language Char :=
  mark '"' * (escape o + one (Plain o []))∗ * mark '"'

/-- One step of a text: a quoted literal, an escape or a character that is none of `ms`. -/
def token (ms : List Char) : Language Char :=
  quoted o + escape o + one (Plain o ms)

def text : Language Char := (token o ['=', '/', ':', '(', '>', ')'])∗

def segment : Language Char := text o * maybe (mark '=' * text o)

def address : Language Char :=
  maybe (mark '/') * segment o * (mark '/' * segment o)∗

def OperationChar (c : Char) : Prop :=
  c ∉ ['(', '>', ':', '/', '=', ')']

def operationName : Language Char :=
  {w | (∀ c ∈ w, OperationChar c) ∧ ∃ c ∈ w, o.isBlank c = false}

def operation : Language Char := mark ':' * operationName o

def name : Language Char := (token o ['=', ',', ')'])∗

end Rules

/-- The words in which the brackets of the kind `b` match, whatever else stands in them. -/
inductive Balanced (b : Bracket) : List Char → Prop
  | nil : Balanced b []
  | other {c : Char} {w : List Char} (ho : c ≠ b.opener) (hc : c ≠ b.closer) (h : Balanced b w) :
    Balanced b (c :: w)
  | nested {v w : List Char} (hv : Balanced b v) (hw : Balanced b w) :
    Balanced b (b.opener :: v ++ b.closer :: w)

def balanced (b : Bracket) : Language Char := {w | Balanced b w}

def bracketed (b : Bracket) : Language Char :=
  mark b.opener * balanced b * mark b.closer

section Rules

variable (o : Options)

def value : Language Char :=
  (token o [',', ')', '[', '{', '('] + bracketed .brackets + bracketed .braces
    + bracketed .parens)∗

def property : Language Char := name o * maybe (mark '=' * value o)

def propertyList : Language Char :=
  mark '(' * property o * (mark ',' * property o)∗ * mark ')'

def target : Language Char :=
  {w | w.head? ≠ some '>' ∧ ∃ c ∈ w, o.isBlank c = false}

def redirect : Language Char := mark '>' * maybe (mark '>') * target o

/-- The request lines. -/
def line : Language Char :=
  blanks o * maybe (address o) * maybe (operation o) * maybe (propertyList o) * blanks o
    * maybe (redirect o)

end Rules

section First

variable {o : Options} {c : Char} {cs : List Char} {ms : List Char} {m : Language Char}

theorem cons_mem_blanks_mul : c :: cs ∈ blanks o * m ↔
    c :: cs ∈ m ∨ (o.isBlank c = true ∧ cs ∈ blanks o * m) := by
  rw [blanks, mem_kstar_mul, cons_mem_one_mul]

theorem cons_mem_escape_mul : c :: cs ∈ escape o * m ↔
    (c = '\\' ∧ o.escapeRule = .backslash) ∧ cs ∈ (one fun _ => True) * m := by
  unfold escape
  split
  · rename_i h
    rw [mul_assoc, cons_mem_mark_mul, and_iff_left h]
  · rename_i h
    rw [zero_mul]
    exact ⟨fun hw => absurd hw (Language.notMem_zero _), fun hw => absurd hw.1.2 h⟩

/-- What is left of a quoted literal after its first quote. -/
def quotedRest (o : Options) : Language Char :=
  (escape o + one (Plain o []))∗ * mark '"'

theorem cons_mem_quotedRest_mul : c :: cs ∈ quotedRest o * m ↔
    (c = '"' ∧ cs ∈ m) ∨
      ((c = '\\' ∧ o.escapeRule = .backslash) ∧ cs ∈ (one fun _ => True) * (quotedRest o * m)) ∨
      (Plain o [] c ∧ cs ∈ quotedRest o * m) := by
  rw [quotedRest, mul_assoc, mem_kstar_mul, cons_mem_mark_mul, mem_add_mul, cons_mem_escape_mul,
    cons_mem_one_mul]

theorem cons_mem_token_mul : c :: cs ∈ token o ms * m ↔
    (c = '"' ∧ cs ∈ quotedRest o * m) ∨
      ((c = '\\' ∧ o.escapeRule = .backslash) ∧ cs ∈ (one fun _ => True) * m) ∨
      (Plain o ms c ∧ cs ∈ m) := by
  rw [token, mem_add_mul, mem_add_mul, cons_mem_escape_mul, cons_mem_one_mul, quoted, mul_assoc,
    mul_assoc, cons_mem_mark_mul, ← mul_assoc, ← quotedRest, or_assoc]

theorem cons_mem_balanced_mul {b : Bracket} : c :: cs ∈ balanced b * m ↔
    c :: cs ∈ m ∨ ((c ≠ b.opener ∧ c ≠ b.closer) ∧ cs ∈ balanced b * m) ∨
      (c = b.opener ∧ cs ∈ balanced b * (mark b.closer * (balanced b * m))) := by
  constructor
  · rintro ⟨w, hw, ys, hys, h⟩
    cases hw with
    | nil => exact .inl (h ▸ hys)
    | other ho hc hw' =>
      obtain ⟨rfl, rfl⟩ := List.cons.inj h
      exact .inr (.inl ⟨⟨ho, hc⟩, ⟨_, hw', ys, hys, rfl⟩⟩)
    | nested hv hw' =>
      obtain ⟨rfl, hcs⟩ := List.cons.inj h
      refine .inr (.inr ⟨rfl, _, hv, _, cons_mem_mark_mul.mpr ⟨rfl, _, hw', ys, hys, rfl⟩, ?_⟩)
      rw [← hcs]
      simp
  · rintro (h | ⟨⟨ho, hc⟩, w, hw, ys, hys, rfl⟩ | ⟨rfl, v, hv, x, hx, rfl⟩)
    · exact ⟨[], .nil, c :: cs, h, rfl⟩
    · exact ⟨c :: w, .other ho hc hw, ys, hys, rfl⟩
    · obtain ⟨_, ⟨d, rfl, rfl⟩, _, ⟨w, hw, ys, hys, rfl⟩, rfl⟩ := hx
      exact ⟨_, .nested hv hw, ys, hys, by simp⟩

/-- What closes a bracket literal with `depth` nested ones open. -/
def closing (b : Bracket) : Nat → Language Char
  | 0 => balanced b * mark b.closer
  | depth + 1 => balanced b * mark b.closer * closing b depth

theorem cons_mem_closing_mul {b : Bracket} {depth : Nat} : c :: cs ∈ closing b depth * m ↔
    if c = b.opener then cs ∈ closing b (depth + 1) * m
    else if c = b.closer then
      if 0 < depth then cs ∈ closing b (depth - 1) * m else cs ∈ m
    else cs ∈ closing b depth * m := by
  have hne := b.opener_ne_closer
  cases depth with
  | zero =>
    simp only [closing, mul_assoc, cons_mem_balanced_mul, cons_mem_mark_mul]
    grind
  | succ depth =>
    simp only [closing, mul_assoc, cons_mem_balanced_mul, cons_mem_mark_mul]
    grind

theorem nil_notMem_closing {b : Bracket} {depth : Nat} : [] ∉ closing b depth := by
  cases depth <;> simp [closing, nil_mem_mul, nil_notMem_mark]

theorem cons_mem_bracketed_mul {b : Bracket} :
    c :: cs ∈ bracketed b * m ↔ c = b.opener ∧ cs ∈ closing b 0 * m := by
  rw [bracketed, mul_assoc, mul_assoc, cons_mem_mark_mul, ← mul_assoc, closing]

theorem cons_mem_tokens_mul : c :: cs ∈ (token o ms)∗ * m ↔
    c :: cs ∈ m ∨ (c = '"' ∧ cs ∈ quotedRest o * ((token o ms)∗ * m)) ∨
      ((c = '\\' ∧ o.escapeRule = .backslash) ∧
        cs ∈ (one fun _ => True) * ((token o ms)∗ * m)) ∨
      (Plain o ms c ∧ cs ∈ (token o ms)∗ * m) := by
  rw [mem_kstar_mul, cons_mem_token_mul]

theorem cons_mem_value_mul : c :: cs ∈ value o * m ↔
    c :: cs ∈ m ∨ (c = '"' ∧ cs ∈ quotedRest o * (value o * m)) ∨
      ((c = '\\' ∧ o.escapeRule = .backslash) ∧ cs ∈ (one fun _ => True) * (value o * m)) ∨
      (Plain o [',', ')', '[', '{', '('] c ∧ cs ∈ value o * m) ∨
      ∃ b : Bracket, c = b.opener ∧ cs ∈ closing b 0 * (value o * m) := by
  have hkind : (∃ b : Bracket, c = b.opener ∧ cs ∈ closing b 0 * (value o * m)) ↔
      (c = Bracket.brackets.opener ∧ cs ∈ closing .brackets 0 * (value o * m)) ∨
      (c = Bracket.braces.opener ∧ cs ∈ closing .braces 0 * (value o * m)) ∨
      (c = Bracket.parens.opener ∧ cs ∈ closing .parens 0 * (value o * m)) := by
    constructor
    · rintro ⟨b | b | b, h⟩
      · exact .inl h
      · exact .inr (.inl h)
      · exact .inr (.inr h)
    · rintro (h | h | h)
      · exact ⟨_, h⟩
      · exact ⟨_, h⟩
      · exact ⟨_, h⟩
  rw [hkind, value, mem_kstar_mul, ← value, mem_add_mul, mem_add_mul, mem_add_mul,
    cons_mem_token_mul, cons_mem_bracketed_mul, cons_mem_bracketed_mul, cons_mem_bracketed_mul]
  simp only [or_assoc]

theorem cons_mem_operationName_mul : c :: cs ∈ operationName o * m ↔
    OperationChar c ∧
      if o.isBlank c then cs ∈ operationName o * m else cs ∈ (one OperationChar)∗ * m := by
  constructor
  · rintro ⟨w, ⟨hall, x, hx, hxb⟩, ys, hys, h⟩
    cases w with
    | nil => exact absurd hx List.not_mem_nil
    | cons d w =>
      obtain ⟨rfl, rfl⟩ := List.cons.inj h
      have hw : ∀ y ∈ w, OperationChar y := fun y hy => hall y (List.mem_cons_of_mem d hy)
      refine ⟨hall d List.mem_cons_self, ?_⟩
      split
      · rename_i hb
        rcases List.mem_cons.mp hx with rfl | hx
        · rw [hb] at hxb
          cases hxb
        · exact ⟨w, ⟨hw, x, hx, hxb⟩, ys, hys, rfl⟩
      · exact ⟨w, mem_kstar_one.mpr hw, ys, hys, rfl⟩
  · rintro ⟨hc, h⟩
    split at h
    · obtain ⟨w, ⟨hall, x, hx, hxb⟩, ys, hys, rfl⟩ := h
      exact ⟨c :: w, ⟨List.forall_mem_cons.mpr ⟨hc, hall⟩, x, List.mem_cons_of_mem c hx, hxb⟩,
        ys, hys, rfl⟩
    · rename_i hb
      obtain ⟨w, hw, ys, hys, rfl⟩ := h
      refine ⟨c :: w, ⟨List.forall_mem_cons.mpr ⟨hc, mem_kstar_one.mp hw⟩, c, List.mem_cons_self,
        ?_⟩, ys, hys, rfl⟩
      rwa [Bool.not_eq_true] at hb

theorem nil_notMem_operationName : [] ∉ operationName o := by
  rintro ⟨-, x, hx, -⟩
  exact List.not_mem_nil hx

/-- The words with a character that is not blank. -/
def inked (o : Options) : Language Char :=
  {w | ∃ c ∈ w, o.isBlank c = false}

theorem nil_notMem_inked : [] ∉ inked o := by
  rintro ⟨x, hx, -⟩
  exact List.not_mem_nil hx

theorem cons_mem_inked : c :: cs ∈ inked o ↔ o.isBlank c = false ∨ cs ∈ inked o := by
  change (∃ x ∈ c :: cs, _) ↔ _ ∨ ∃ x ∈ cs, _
  simp

theorem nil_notMem_target : [] ∉ target o := by
  rintro ⟨-, x, hx, -⟩
  exact List.not_mem_nil hx

theorem cons_mem_target : c :: cs ∈ target o ↔
    c ≠ '>' ∧ (o.isBlank c = false ∨ cs ∈ inked o) := by
  rw [← cons_mem_inked]
  change ((c :: cs).head? ≠ some '>' ∧ _) ↔ _
  simp only [List.head?_cons, ne_eq, Option.some.injEq]
  rfl

end First

end Grammar

end RequestLine
