import Mathlib.Data.List.Basic
import Mathlib.Tactic.SplitIfs
import RequestLine.CommandLine

/-!
# Dumps

A line of a dump can be read again. The labels are made of capital letters and underlines, so the
first mark in a line says of which kind its event is and where the label ends. A character between
quotes is read from its beginning, since no way to write one is the beginning of another
(`Text.unescape?_escapeChar`); which characters are shown as they are does not matter for that. So
the reader `Event.ofText?` gives every event back, and since no line of a dump has a line feed in
it, the events can be told from the whole dump (`dump_is_lossless`).
-/

namespace RequestLine

namespace Text

/-- The text before the first `mark`, and the text behind it. -/
def cutAt (mark : Char) (cs : List Char) : List Char × List Char :=
  (cs.takeWhile (· ≠ mark), (cs.dropWhile (· ≠ mark)).tail)

theorem cutAt_append {mark : Char} {before : List Char} (h : mark ∉ before) (after : List Char) :
    cutAt mark (before ++ mark :: after) = (before, after) := by
  have hbefore : ∀ ch ∈ before, decide (ch ≠ mark) = true := by
    intro ch hch
    rw [decide_eq_true_eq]
    rintro rfl
    exact h hch
  simp only [cutAt, List.takeWhile_append_of_pos hbefore, List.dropWhile_append_of_pos hbefore]
  simp

/-- What stands before the first `mark` can be told from the whole text. -/
theorem eq_of_append_mark {mark : Char} {xs ys xs' ys' : List Char} (hxs : mark ∉ xs)
    (hys : mark ∉ ys) (h : xs ++ mark :: xs' = ys ++ mark :: ys') : xs = ys ∧ xs' = ys' := by
  have hcut := congrArg (cutAt mark) h
  rw [cutAt_append hxs, cutAt_append hys] at hcut
  exact Prod.mk.inj hcut

/-- None of the marks behind a number is a digit, in whatever base it is written. -/
theorem notMem_toDigits {mark : Char} (h : mark ∈ ['\n', ' ', '}']) {b : Nat} (hb : 1 < b)
    (n : Nat) : mark ∉ b.toDigits n := by
  have hdigit : ∀ d : Nat, d.digitChar ≠ mark := by
    intro d
    simp only [List.mem_cons, List.not_mem_nil, or_false] at h
    rcases h with rfl | rfl | rfl <;> exact Nat.digitChar_ne _ (by decide)
  induction n using Nat.strongRecOn with
  | _ n ih =>
    rw [Nat.toDigits_eq_if hb]
    split
    · rw [List.mem_singleton]
      exact (hdigit n).symm
    · rename_i hn
      rw [List.mem_append, List.mem_singleton, not_or]
      exact ⟨ih (n / b) (Nat.div_lt_self (by omega) hb), (hdigit (n % b)).symm⟩

def hexDigit (ch : Char) : Nat :=
  if ch.isDigit then ch.toNat - '0'.toNat else ch.toNat - 'a'.toNat + 10

/-- The number with the hexadecimal digits. -/
def ofHexDigits (digits : List Char) : Nat :=
  digits.foldl (fun n ch => 16 * n + hexDigit ch) 0

theorem ofHexDigits_toDigits (n : Nat) : ofHexDigits (Nat.toDigits 16 n) = n := by
  have hdigit : ∀ d < 16, hexDigit d.digitChar = d := by decide
  induction n using Nat.strongRecOn with
  | _ n ih =>
    rw [Nat.toDigits_eq_if (by decide)]
    split
    · rename_i hn
      simp [ofHexDigits, hdigit n hn]
    · rename_i hn
      have hrest : (Nat.toDigits 16 (n / 16)).foldl (fun n ch => 16 * n + hexDigit ch) 0 = n / 16 :=
        ih (n / 16) (by omega)
      rw [ofHexDigits, List.foldl_append, hrest, List.foldl_cons, List.foldl_nil,
        hdigit (n % 16) (by omega), Nat.div_add_mod]

/-- The character that is meant by one that stands behind a backslash. -/
def escaped (ch : Char) : Char :=
  if ch = '0' then '\x00'
  else if ch = 't' then '\t'
  else if ch = 'r' then '\r'
  else if ch = 'n' then '\n'
  else ch

/-- A character is written with a backslash before it or before a letter for it, as itself, or by
its code. -/
theorem escapeChar_cases (ch : Char) :
    (∃ mark, mark ≠ 'u' ∧ mark ≠ '\n' ∧ escaped mark = ch ∧ escapeChar '\'' ch = ['\\', mark])
      ∨ ch ≠ '\\' ∧ ch ≠ '\n' ∧ escapeChar '\'' ch = [ch]
      ∨ escapeChar '\'' ch = escapeCode ch := by
  generalize hwritten : escapeChar '\'' ch = written
  unfold escapeChar at hwritten
  split_ifs at hwritten with hzero htab hreturn hfeed hbackslash hquote hshown <;> subst hwritten
  · exact .inl ⟨'0', by decide, by decide, hzero.symm, rfl⟩
  · exact .inl ⟨'t', by decide, by decide, htab.symm, rfl⟩
  · exact .inl ⟨'r', by decide, by decide, hreturn.symm, rfl⟩
  · exact .inl ⟨'n', by decide, by decide, hfeed.symm, rfl⟩
  · exact .inl ⟨'\\', by decide, by decide, hbackslash.symm, rfl⟩
  · exact .inl ⟨'\'', by decide, by decide, hquote.symm, rfl⟩
  · exact .inr (.inl ⟨hbackslash, hfeed, rfl⟩)
  · exact .inr (.inr rfl)

/-- The character that is written first between two quotes, and the text behind it. -/
def unescape? : List Char → Option (Char × List Char)
  | '\\' :: ch :: cs =>
    if ch = 'u' then
      let (digits, rest) := cutAt '}' cs.tail
      some (Char.ofNat (ofHexDigits digits), rest)
    else some (escaped ch, cs)
  | ch :: cs => some (ch, cs)
  | [] => none

theorem unescape?_of_ne {ch : Char} (h : ch ≠ '\\') (cs : List Char) :
    unescape? (ch :: cs) = some (ch, cs) := by
  unfold unescape?
  split <;> simp_all

theorem unescape?_backslash {mark : Char} (h : mark ≠ 'u') (cs : List Char) :
    unescape? ('\\' :: mark :: cs) = some (escaped mark, cs) :=
  if_neg h

theorem unescape?_escapeCode (ch : Char) (cs : List Char) :
    unescape? (escapeCode ch ++ cs) = some (ch, cs) := by
  have hbrace : '}' ∉ Nat.toDigits 16 ch.toNat := notMem_toDigits (by decide) (by decide) _
  have hcode : escapeCode ch ++ cs
      = '\\' :: 'u' :: '{' :: (Nat.toDigits 16 ch.toNat ++ '}' :: cs) := by
    simp [escapeCode]
  rw [hcode]
  simp only [unescape?, if_true, List.tail_cons, cutAt_append hbrace, ofHexDigits_toDigits,
    Char.ofNat_toNat]

/-- A character can be read from its beginning, whatever is written behind it. -/
theorem unescape?_escapeChar (ch : Char) (cs : List Char) :
    unescape? (escapeChar '\'' ch ++ cs) = some (ch, cs) := by
  rcases escapeChar_cases ch with ⟨mark, hu, -, rfl, hmark⟩ | ⟨hbackslash, -, hself⟩ | hcode
  · rw [hmark]
    exact unescape?_backslash hu cs
  · rw [hself]
    exact unescape?_of_ne hbackslash cs
  · rw [hcode]
    exact unescape?_escapeCode ch cs

/-- The character that stands between quotes at the beginning of the text, and the text behind. -/
def unquote? : List Char → Option (Char × List Char)
  | '\'' :: cs => (unescape? cs).map fun (ch, rest) => (ch, rest.tail)
  | _ => none

theorem unquote?_quotedChar (ch : Char) (cs : List Char) :
    unquote? ((quotedChar ch).toList ++ cs) = some (ch, cs) := by
  have hquoted : (quotedChar ch).toList ++ cs = '\'' :: (escapeChar '\'' ch ++ '\'' :: cs) := by
    simp [quotedChar]
  rw [hquoted]
  simp only [unquote?, unescape?_escapeChar, Option.map_some, List.tail_cons]

theorem lineFeed_notMem_quotedChar (ch : Char) : '\n' ∉ (quotedChar ch).toList := by
  have hescape : '\n' ∉ escapeChar '\'' ch := by
    rcases escapeChar_cases ch with ⟨mark, -, hfeed, -, hmark⟩ | ⟨-, hfeed, hself⟩ | hcode
    · simp [hmark, hfeed.symm]
    · simp [hself, hfeed.symm]
    · have hdigits : '\n' ∉ Nat.toDigits 16 ch.toNat := notMem_toDigits (by decide) (by decide) _
      simp [hcode, escapeCode, hdigits]
  simp [quotedChar, hescape]

end Text

/-- None of the marks of a dump is in a label. -/
theorem Label.notMem_id {mark : Char} (h : mark ∈ ['+', '-', '@', ' ', '\n']) (l : Label) :
    mark ∉ l.id.toList := by
  revert mark
  cases l <;> simp [Label.id]

namespace Event

/-- The offset that is written with the digits. -/
def offsetOf (digits : List Char) : Nat :=
  Nat.ofDigitChars 10 digits 0

/-- Reads what is written behind the `+`. -/
def enteredOf? (cs : List Char) : Option Event :=
  let (id, digits) := Text.cutAt '@' cs
  (Label.ofId? (String.ofList id)).map fun l => entered l (offsetOf digits)

/-- Reads what is written behind the `-`. -/
def leavingOf? (cs : List Char) : Option Event :=
  let (id, rest) := Text.cutAt '@' cs
  let (digits, closing) := Text.cutAt ' ' rest
  (Label.ofId? (String.ofList id)).map fun l =>
    leaving l (offsetOf digits) ((Text.unquote? closing).map Prod.fst)

def characterOf? (cs : List Char) : Option Event :=
  let (id, quoted) := Text.cutAt ' ' cs
  (Label.ofId? (String.ofList id)).bind fun l =>
    (Text.unquote? quoted).map fun (ch, rest) => character l ch (offsetOf rest.tail)

/-- The event on a line of a dump. Of other lines nothing is said. -/
def ofText? (line : String) : Option Event :=
  match line.toList with
  | '+' :: cs => enteredOf? cs
  | '-' :: cs => leavingOf? cs
  | cs => characterOf? cs

theorem toList_entered (l : Label) (n : Nat) :
    (entered l n).text.toList = '+' :: (l.id.toList ++ '@' :: Nat.toDigits 10 n) := by
  simp [text]

theorem toList_character (l : Label) (ch : Char) (n : Nat) :
    (character l ch n).text.toList
      = l.id.toList ++ ' ' :: ((Text.quotedChar ch).toList ++ '@' :: Nat.toDigits 10 n) := by
  simp [text]

theorem toList_leaving (l : Label) (n : Nat) (x : Option Char) :
    (leaving l n x).text.toList
      = '-' :: (l.id.toList ++ '@' :: (Nat.toDigits 10 n
        ++ ' ' :: (x.map fun ch => (Text.quotedChar ch).toList).getD ['e', 'o', 'c'])) := by
  cases x <;> simp [text]

section Read

variable (l : Label) (n : Nat)

theorem offsetOf_toDigits : offsetOf (Nat.toDigits 10 n) = n :=
  Nat.ofDigitChars_ten_toDigits

theorem ofText?_entered : ofText? (entered l n).text = some (entered l n) := by
  have hid : '@' ∉ l.id.toList := l.notMem_id (by decide)
  rw [ofText?, toList_entered]
  simp only [enteredOf?, Text.cutAt_append hid, String.ofList_toList, Label.ofId?_id,
    offsetOf_toDigits, Option.map_some]

theorem ofText?_leaving (x : Option Char) :
    ofText? (leaving l n x).text = some (leaving l n x) := by
  have hid : '@' ∉ l.id.toList := l.notMem_id (by decide)
  have hdigits : ' ' ∉ Nat.toDigits 10 n := Text.notMem_toDigits (by decide) (by decide) n
  have hclosing : (Text.unquote? ((x.map fun ch => (Text.quotedChar ch).toList).getD
      ['e', 'o', 'c'])).map Prod.fst = x := by
    cases x with
    | none => rfl
    | some ch =>
      have hquoted := Text.unquote?_quotedChar ch []
      rw [List.append_nil] at hquoted
      rw [Option.map_some, Option.getD_some, hquoted, Option.map_some]
  rw [ofText?, toList_leaving]
  simp only [leavingOf?, Text.cutAt_append hid, Text.cutAt_append hdigits, String.ofList_toList,
    Label.ofId?_id, offsetOf_toDigits, hclosing, Option.map_some]

/-- The line begins with a letter of the label. -/
theorem ofText?_character (ch : Char) :
    ofText? (character l ch n).text = some (character l ch n) := by
  have hread : ofText? (character l ch n).text
      = characterOf? (character l ch n).text.toList := by
    rw [ofText?, toList_character]
    cases l <;> rfl
  have hid : ' ' ∉ l.id.toList := l.notMem_id (by decide)
  rw [hread, toList_character]
  simp only [characterOf?, Text.cutAt_append hid, String.ofList_toList, Label.ofId?_id,
    Text.unquote?_quotedChar, List.tail_cons, offsetOf_toDigits, Option.bind_some,
    Option.map_some]

end Read

/-- Every event can be read from its line. -/
theorem ofText?_text (e : Event) : ofText? e.text = some e := by
  cases e with
  | entered l n => exact ofText?_entered l n
  | character l ch n => exact ofText?_character l n ch
  | leaving l n x => exact ofText?_leaving l n x

theorem lineFeed_notMem_text (e : Event) : '\n' ∉ e.text.toList := by
  have hid : ∀ l : Label, '\n' ∉ l.id.toList := fun l => l.notMem_id (by decide)
  have hdigits : ∀ n, '\n' ∉ Nat.toDigits 10 n := Text.notMem_toDigits (by decide) (by decide)
  cases e with
  | entered l n => simp [toList_entered, hid, hdigits]
  | character l ch n => simp [toList_character, hid, hdigits, Text.lineFeed_notMem_quotedChar]
  | leaving l n x =>
    cases x <;> simp [toList_leaving, hid, hdigits, Text.lineFeed_notMem_quotedChar]

end Event

namespace CommandLine

theorem toList_printed_cons (line : String) (lines : List String) :
    (printed (line :: lines)).toList = line.toList ++ '\n' :: (printed lines).toList := by
  simp [printed, String.toList_join]

theorem printed_cons_ne (line : String) (lines : List String) :
    printed (line :: lines) ≠ printed [] := by
  intro h
  have hempty := congrArg String.toList h
  rw [toList_printed_cons] at hempty
  simp [printed] at hempty

/-- Lines without line feeds can be told from what is printed. -/
theorem printed_inj {ks ls : List String} (hks : ∀ k ∈ ks, '\n' ∉ k.toList)
    (hls : ∀ l ∈ ls, '\n' ∉ l.toList) (h : printed ks = printed ls) : ks = ls := by
  induction ks generalizing ls with
  | nil =>
    cases ls with
    | nil => rfl
    | cons l ls => exact absurd h.symm (printed_cons_ne l ls)
  | cons k ks ih =>
    cases ls with
    | nil => exact absurd h (printed_cons_ne k ks)
    | cons l ls =>
      have hlines := congrArg String.toList h
      rw [toList_printed_cons, toList_printed_cons] at hlines
      obtain ⟨hline, hrest⟩ := Text.eq_of_append_mark (hks k List.mem_cons_self)
        (hls l List.mem_cons_self) hlines
      rw [String.toList_inj.mp hline, ih (fun k hk => hks k (List.mem_cons_of_mem _ hk))
        (fun l hl => hls l (List.mem_cons_of_mem _ hl)) (String.toList_inj.mp hrest)]

end CommandLine

/-- Two events with the same line in a dump are the same, and so are two sequences of events with
the same dump. -/
theorem dump_is_lossless :
    Function.Injective Event.text
      ∧ Function.Injective fun es : List Event => CommandLine.printed (es.map Event.text) := by
  have htext : Function.Injective Event.text := by
    intro d e h
    have hread := congrArg Event.ofText? h
    rw [Event.ofText?_text, Event.ofText?_text] at hread
    exact Option.some.inj hread
  refine ⟨htext, fun ds es h => ?_⟩
  have hfeeds : ∀ es : List Event, ∀ line ∈ es.map Event.text, '\n' ∉ line.toList := by
    intro es line hline
    obtain ⟨e, -, rfl⟩ := List.mem_map.mp hline
    exact e.lineFeed_notMem_text
  exact List.map_injective_iff.mpr htext (CommandLine.printed_inj (hfeeds ds) (hfeeds es) h)

end RequestLine
