import RequestLine.Text.Blank

/-!
# Reading options
-/

namespace RequestLine

/-- What a backslash means in names, values and quoted literals. -/
inductive EscapeRule where
  /-- It protects the character after it. -/
  | backslash
  /-- It is an ordinary character. -/
  | verbatim
  deriving DecidableEq, Repr

/-- How a line is read. -/
structure Options where
  escapeRule : EscapeRule := .backslash
  /-- A bracket literal that is still open at the end of the line is closed there. -/
  lenientBrackets : Bool := false
  /-- All of Unicode's blanks count as blank, not only the four of a terminal line. -/
  unicodeBlanks : Bool := false
  /-- An error ends the whole program and not only the reading of the line. -/
  fatalErrors : Bool := false
  deriving DecidableEq, Repr

/-- The characters that count as blank. -/
def Options.isBlank (o : Options) (c : Char) : Bool :=
  if o.unicodeBlanks then Text.isUnicodeBlank c else Text.isPlainBlank c

end RequestLine
