import RequestLine.Request.Parse

/-!
# Questions of completion

While a line is being typed, a shell asks after every character what the line ends on and whether
it is a request already.
-/

namespace RequestLine

/-- What completion knows about a line that may be unfinished. -/
structure Completion where
  separator : Option Separator
  complete : Bool
  /-- Why the line is not a request yet. -/
  outcome : Except Stop Unit

/-- What completion knows about `line`. -/
def Completion.ofLine (options : Options) (line : String) : Completion :=
  let report := Collector.read options line { options }
  { separator := report.consumer.separator
    complete := report.consumer.isComplete
    outcome := report.outcome }

/-- What completion knows while `line` is typed, from the empty line to all of it. -/
def Completion.whileTyping (options : Options) (line : String) : List Completion :=
  (List.range (line.toList.length + 1)).map fun n =>
    ofLine options (String.ofList (line.toList.take n))

end RequestLine
