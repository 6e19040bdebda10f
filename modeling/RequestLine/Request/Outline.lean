import RequestLine.Request.Basic
import RequestLine.Text.Quoted

/-!
# Outlines

The long form in which a request is shown for inspection: one part a line, nested parts indented
below their heads.
-/

namespace RequestLine

/-- A tree of lines: a leaf is one line, a block stands between an opening and a closing line. -/
inductive Outline where
  | leaf (line : String)
  | block (opening : String) (items : List Outline) (closing : String)

namespace Outline

/-- The outline with `label` before its first line. -/
def labelled (label : String) : Outline → Outline
  | leaf line => leaf (label ++ ": " ++ line)
  | block opening items closing => block (label ++ ": " ++ opening) items closing

/-- A value that may be missing. -/
def ofOption {α : Type} (outline : α → Outline) : Option α → Outline
  | none => leaf "None"
  | some a => block "Some(" [outline a] ")"

/-- A list of values. -/
def ofList {α : Type} (outline : α → Outline) : List α → Outline
  | [] => leaf "[]"
  | as => block "[" (as.map outline) "]"

/-- A record with labelled parts. -/
def record (name : String) (parts : List (String × Outline)) : Outline :=
  block (name ++ " \x7b") (parts.map fun (label, part) => part.labelled label) "\x7d"

mutual

/-- The lines of the outline below an indentation, each item of a block with a comma after it. -/
def lines (indent : String) (comma : String) : Outline → List String
  | leaf line => [indent ++ line ++ comma]
  | block opening items closing =>
    (indent ++ opening) :: itemLines (indent ++ "    ") items ++ [indent ++ closing ++ comma]

def itemLines (indent : String) : List Outline → List String
  | [] => []
  | item :: items => lines indent "," item ++ itemLines indent items

end

/-- The outline as a text of several lines. -/
def text (o : Outline) : String :=
  "\n".intercalate (o.lines "" "")

end Outline

def Text.outline (s : String) : Outline :=
  .leaf (Text.quotedText s)

def Segment.outline (s : Segment) : Outline :=
  .record "NodeSegment"
    [("node_type", Text.outline s.nodeType), ("name", .ofOption Text.outline s.name)]

def Step.outline : Step → Outline
  | node s => .block "Node(" [s.outline] ")"
  | parent => .leaf "Parent"
  | current => .leaf "Current"
  | nodeType => .leaf "NodeType"

def Property.outline (p : Property) : Outline :=
  .record "Property"
    [("name", Text.outline p.name), ("value", .ofOption Text.outline p.value),
      ("value_separator", .ofOption (fun n => .leaf (toString n)) p.valueSeparator)]

/-- The name of the mode. -/
def RedirectMode.title : RedirectMode → String
  | overwrite => "Overwrite"
  | append => "Append"

def Redirect.outline (r : Redirect) : Outline :=
  .record "Redirect" [("mode", .leaf r.mode.title), ("target", Text.outline r.target)]

def Request.outline (r : Request) : Outline :=
  .record "ParsedRequest"
    [("absolute", .leaf (if r.absolute then "true" else "false")),
      ("address", .ofList Step.outline r.address),
      ("operation", .ofOption Text.outline r.operation),
      ("properties", .ofOption (.ofList Property.outline) r.properties),
      ("redirect", .ofOption Redirect.outline r.redirect)]

end RequestLine
