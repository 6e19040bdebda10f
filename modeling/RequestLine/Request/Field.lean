import RequestLine.Text.Blank
import RequestLine.Text.Bytes

/-!
# Fields

A field gathers the text of one name or value, character by character. Characters that come out of
a literal are kept whatever they are; blanks around them are trimmed when the field is done. The
field remembers only the byte range from the first to the last kept character, since everything
in between stays in any case.
-/

namespace RequestLine

structure Field where
  text : String := ""
  /-- The byte range, from the first to the last kept character. -/
  kept : Option (Nat × Nat) := none
  deriving DecidableEq, Repr

namespace Field

/-- Nothing has been gathered. -/
def isEmpty (f : Field) : Bool :=
  f.text.isEmpty

/-- The field with `c` at its end, which is to be kept if `keep` holds. -/
def push (f : Field) (c : Char) (keep : Bool) : Field :=
  let start := f.text.utf8ByteSize
  { text := f.text.push c
    kept :=
      if keep then some ((f.kept.map Prod.fst).getD start, start + c.utf8Size) else f.kept }

/-- The text without the blanks before and after its kept range; nothing if the range does not
begin and end between characters of the text. -/
def trimmed? (isBlank : Char → Bool) (f : Field) : Option (List Char) :=
  match f.kept with
  | none => some (Text.trim isBlank f.text.toList)
  | some (start, stop) => do
    let (upTo, after) ← Text.splitAtByte? stop f.text.toList
    let (before, kept) ← Text.splitAtByte? start upTo
    return Text.trimStart isBlank before ++ kept ++ Text.trimEnd isBlank after

/-- The text of the field. -/
def finish (isBlank : Char → Bool) (f : Field) : String :=
  String.ofList ((f.trimmed? isBlank).getD [])

/-- Takes the text out of the field, which is empty after that. -/
def drain (isBlank : Char → Bool) (f : Field) : String × Field :=
  (f.finish isBlank, {})

/-- Takes the text out of the field, which is empty after that. Nothing if the range of the field
does not begin and end between characters of its text. -/
def drain? (isBlank : Char → Bool) (f : Field) : Option (String × Field) :=
  (f.trimmed? isBlank).map fun cs => (String.ofList cs, {})

end Field

end RequestLine
