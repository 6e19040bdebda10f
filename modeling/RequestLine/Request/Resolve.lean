import RequestLine.Request.Basic

/-!
# Navigation

A node is reached by a path of segments from the root. The steps of an address act on such a path
at its end; an absolute address starts from the empty path, a relative one from the current node.
-/

namespace RequestLine

/-- The segment without its name. -/
def Segment.unnamed (s : Segment) : Segment :=
  { s with name := none }

/-- A path read from its end, with the segment `s` appended. A bare segment after one without a name
gives that one its name. -/
def Segment.join (s : Segment) : List Segment → List Segment
  | [] => [s]
  | last :: path =>
    if last.name.isNone && s.name.isNone then { last with name := some s.nodeType } :: path
    else s :: last :: path

/-- The effect of a step on a path read from its end. -/
def Step.walk : Step → List Segment → List Segment
  | node s, path => s.join path
  | parent, path => path.tail
  | current, path => path
  | nodeType, [] => []
  | nodeType, last :: path => last.unnamed :: path

/-- The node that the request addresses, seen from the node `current`. -/
def Request.resolve (r : Request) (current : List Segment) : List Segment :=
  let origin := if r.absolute then [] else current
  (r.address.foldl (fun path step => step.walk path) origin.reverse).reverse

end RequestLine
