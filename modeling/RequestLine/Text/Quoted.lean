import RequestLine.Text.Blank
import RequestLine.Text.Extending
import RequestLine.Text.Ignorable
import RequestLine.Text.Unprintable

/-!
# Quoted characters and texts

The form in which messages and dumps show a character or a text: between quotes, with a backslash
escape for the characters that would be confusing or invisible. A character stands between single
quotes and a text between double quotes, and only the quote that surrounds it is escaped.
-/

namespace RequestLine.Text

/-- The characters that can be shown as they are: the visible ones that stand on their own. -/
def isShown (c : Char) : Bool :=
  if c.toNat < 0x7F then 0x20 ≤ c.toNat
  else
    !inRanges extendingRanges c && !inRanges ignorableRanges c && !inRanges unprintableRanges c

/-- A character by its code point, in lower-case hexadecimal digits. -/
def escapeCode (c : Char) : List Char :=
  ['\\', 'u', '{'] ++ Nat.toDigits 16 c.toNat ++ ['}']

/-- How `c` is written between two marks `quote`. -/
def escapeChar (quote c : Char) : List Char :=
  if c = '\x00' then ['\\', '0']
  else if c = '\t' then ['\\', 't']
  else if c = '\r' then ['\\', 'r']
  else if c = '\n' then ['\\', 'n']
  else if c = '\\' then ['\\', '\\']
  else if c = quote then ['\\', quote]
  else if isShown c then [c]
  else escapeCode c

/-- A character between single quotes. -/
def quotedChar (c : Char) : String :=
  String.ofList ('\'' :: escapeChar '\'' c ++ ['\''])

/-- A text between double quotes. -/
def quotedText (s : String) : String :=
  String.ofList ('"' :: s.toList.flatMap (escapeChar '"') ++ ['"'])

end RequestLine.Text
