import RequestLine.Machine.Run
import RequestLine.Request.Collector
import RequestLine.Request.Grammar

/-!
# Reading request lines

The machine of the request grammar, and what is made of a line with it: nothing (to check it), its
events, or its request.
-/

namespace RequestLine

/-- No character of a request line makes actions nest deeper than this, and no more states than
this are open at its end. -/
def Request.bound : Nat := 7

/-- The machine of the request grammar. -/
def Request.machine {σ : Type} (options : Options) (sink : Sink σ) : Machine Label σ :=
  { state := Request.state, initial := .initial, options, sink }

/-- Reads a request line into a consumer. -/
def Request.run {σ : Type} (options : Options) (sink : Sink σ) (line : String) (consumer : σ) :
    Report σ :=
  (Request.machine options sink).run Request.bound line consumer

/-- Whether the line is a request. -/
def Request.check (options : Options) (line : String) : Except Stop Unit :=
  (Request.run options Sink.ignore line ()).outcome

/-- Reads a line into the collector, on top of what it holds. -/
def Collector.read (options : Options) (line : String) (c : Collector) : Report Collector :=
  Request.run options Collector.sink line c

/-- The request that is written in the line. -/
def Request.parse (options : Options) (line : String) : Except Stop Request :=
  let report := Collector.read options line { options }
  report.outcome.map fun () => report.consumer.request

end RequestLine
