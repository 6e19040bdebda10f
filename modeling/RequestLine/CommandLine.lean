import RequestLine.Request.Outline
import RequestLine.Request.Parse
import RequestLine.Request.Render

/-!
# The command line

The program reads the request line given by its arguments. It prints the events of the run and
then either the request, as an outline and as a line, or the line with a caret under the error.
-/

namespace RequestLine.CommandLine

/-- What the program prints and the code with which it ends. -/
structure Output where
  stdout : String
  stderr : String := ""
  code : Nat := 0
  deriving DecidableEq, Repr

/-- The line that is read when no argument is given. -/
def defaultLine : String :=
  "/subsystem=elytron/filesystem-realm=fs:add(path=users, relative-to=jboss.server.config.dir) "
    ++ ">> realm.log"

/-- The line that the arguments give. -/
def lineOf : List String → String
  | [] => defaultLine
  | args => " ".intercalate args

/-- Each of the lines with a line feed after it. -/
def printed (lines : List String) : String :=
  String.join (lines.map (· ++ "\n"))

/-- The caret below the place of an error, with its message. -/
def caret (line : String) (e : ParseError) : String :=
  let column := (Text.column? e.offset line.toList).getD 0
  String.ofList (List.replicate column ' ') ++ "^ " ++ e.message

/-- What is said about a line that failed: the line, the error under it and, if there is one, the
separator that the line ends on. -/
def diagnosis (line : String) (e : ParseError) (separator : Option Separator) : List String :=
  [line, caret line e] ++ (separator.map fun s => "line ends on " ++ s.title).toList

/-- Runs the program on its arguments. -/
def run (args : List String) : Output :=
  let line := lineOf args
  let report := Request.run {} (Sink.both Sink.record Collector.sink) line (#[], {})
  let (events, collector) := report.consumer
  let dump := events.toList.map Event.text ++ [""]
  match report.outcome with
  | .ok () =>
    { stdout := printed (dump ++ [collector.request.outline.text, collector.request.render]) }
  | .error (.failed e) | .error (.fatal e) =>
    { stdout := printed dump
      stderr := printed (diagnosis line e collector.separator)
      code := 1 }
  | .error .exhausted => { stdout := printed dump, code := 1 }

end RequestLine.CommandLine
