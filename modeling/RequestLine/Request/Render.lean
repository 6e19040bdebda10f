import RequestLine.Request.Basic
import RequestLine.Text.Blank

/-!
# Requests as lines

The line that a request is written as. Names and values are written bare where they can be, and
between quotes with backslash escapes where a blank or a mark of the grammar would be misread.
Operation names and redirection targets are always written bare.
-/

namespace RequestLine

namespace Text

/-- The characters that have a meaning in a request line. -/
def isMark (c : Char) : Bool :=
  ['"', '\\', '/', '=', ':', ',', '(', ')', '[', ']', '{', '}', '>'].contains c

/-- The text cannot be written bare. -/
def needsQuotes (s : String) : Bool :=
  s.toList.any fun c => isUnicodeBlank c || isMark c

/-- A character between the quotes of a literal. -/
def protect (c : Char) : List Char :=
  if c = '"' || c = '\\' then ['\\', c] else [c]

/-- The text as a quoted literal. -/
def enquote (s : String) : String :=
  String.ofList ('"' :: s.toList.flatMap protect ++ ['"'])

/-- The text as it stands in a line. -/
def write (s : String) : String :=
  if needsQuotes s then enquote s else s

end Text

/-- A segment in a line. A nameless segment whose type is a navigation word is quoted, so that it
is not read as navigation. -/
def Segment.render (s : Segment) : String :=
  match s.name with
  | none =>
    if (Step.ofWord? s.nodeType).isSome then Text.enquote s.nodeType else Text.write s.nodeType
  | some name => Text.write s.nodeType ++ "=" ++ Text.write name

def Step.render : Step → String
  | node s => s.render
  | parent => ".."
  | current => "."
  | nodeType => ".type"

def Property.render (p : Property) : String :=
  match p.value with
  | none => Text.write p.name
  | some value => Text.write p.name ++ "=" ++ Text.write value

def RedirectMode.render : RedirectMode → String
  | overwrite => ">"
  | append => ">>"

def Redirect.render (r : Redirect) : String :=
  r.mode.render ++ " " ++ r.target

namespace Request

/-- The address in a line. -/
def renderAddress (r : Request) : String :=
  (if r.absolute then "/" else "") ++ "/".intercalate (r.address.map Step.render)

/-- The operation in a line. -/
def renderOperation (r : Request) : String :=
  match r.operation with
  | none => ""
  | some operation => ":" ++ operation

/-- The property list in a line. -/
def renderProperties (r : Request) : String :=
  match r.properties with
  | none => ""
  | some ps => "(" ++ ",".intercalate (ps.map Property.render) ++ ")"

/-- The request has no part before its redirection. -/
def isBare (r : Request) : Bool :=
  !r.absolute && r.address.isEmpty && r.operation.isNone && r.properties.isNone

/-- The redirection in a line, set off by a space from the parts before it. -/
def renderRedirect (r : Request) : String :=
  match r.redirect with
  | none => ""
  | some redirect => (if r.isBare then "" else " ") ++ redirect.render

/-- The request as a line. -/
def render (r : Request) : String :=
  r.renderAddress ++ r.renderOperation ++ r.renderProperties ++ r.renderRedirect

end Request

end RequestLine
