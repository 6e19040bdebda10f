import RequestLine.Machine.State

/-!
# The grammar of request lines

```text
request  := address? (':' operation)? list? redirect?
address  := '/'? step ('/' step)*
step     := text ('=' text)?
list     := '(' (property (',' property)*)? ')'
property := name ('=' value)?
redirect := ('>' | '>>') target
```

The states are named by their labels. The parts of a request are siblings on the stack: each one
closes itself and opens the next, so a part that is done cannot be opened again. Quotes and, in
values, brackets, braces and parentheses open literals whose content is not interpreted.
-/

namespace RequestLine.Request

/-- Close the current state and open `next` at the same character. -/
def goTo (next : Label) : Action Label :=
  .sequence [.leave, .enter next]

/-- Open `next` and let it read the character that opened it. -/
def start (next : Label) : Action Label :=
  .sequence [.enter next, .reprocess]

/-- A literal between two marks, which are part of it and may nest. -/
def literal (label : Label) (opener closer : Char) : State Label where
  label := label
  entries := [(opener, .openNested), (closer, .closeNested)]
  onEnter := .forward
  onEnd := .fail .unmatchedBracket

/-- The state of each label. -/
def state : Label → State Label
  | .initial =>
    { label := .initial
      blanks := .ignore
      entries := [('/', .sequence [.forward, .enter .node]), (':', .enter .operationName),
        ('(', .enter .propertyList), ('>', .enter .outputRedirect)]
      otherwise := start .node }
  | .node =>
    { label := .node
      blanks := .ignoreLeading
      entries := [('=', .enter .nodeName), ('/', .reenter), (':', goTo .operationName),
        ('(', goTo .propertyList), ('>', goTo .outputRedirect), ('"', .enter .quotes),
        ('\\', .escape .escape), (')', .fail .unexpectedCharacter)]
      onReturn := .resume }
  | .nodeName =>
    { label := .nodeName
      blanks := .ignoreLeading
      entries := [('"', .enter .quotes), ('\\', .escape .escape), ('/', .handBack),
        (':', .handBack), ('(', .handBack), ('>', .handBack), ('=', .fail .unexpectedCharacter),
        (')', .fail .unexpectedCharacter)]
      onReturn := .resume }
  | .operationName =>
    { label := .operationName
      blanks := .ignoreLeading
      entries := [('(', goTo .propertyList), ('>', goTo .outputRedirect),
        (':', .fail .unexpectedCharacter), ('/', .fail .unexpectedCharacter),
        ('=', .fail .unexpectedCharacter), (')', .fail .unexpectedCharacter)]
      onLeave := .requireContent .emptyOperationName }
  | .propertyList =>
    { label := .propertyList
      blanks := .ignore
      entries := [(')', goTo .requestEnd)]
      otherwise := start .property
      onReturn := .resume
      onEnd := .fail .missingCloseParen }
  | .property =>
    { label := .property
      entries := [('=', .enter .propertyValue), (',', .reenter), (')', .handBack),
        ('"', .enter .quotes), ('\\', .escape .escape)]
      onReturn := .resume }
  | .propertyValue =>
    { label := .propertyValue
      entries := [(',', .handBack), (')', .handBack), ('"', .enter .quotes),
        ('\\', .escape .escape), ('[', .enter .brackets), ('{', .enter .braces),
        ('(', .enter .parens)]
      onReturn := .resume }
  | .quotes =>
    { label := .quotes
      entries := [('"', .leave), ('\\', .escape .escape)]
      onEnd := .fail .unterminatedQuote }
  | .escape =>
    { label := .escape
      otherwise := .sequence [.forward, .leave]
      onEnd := .fail .danglingEscape }
  | .brackets => literal .brackets '[' ']'
  | .braces => literal .braces '{' '}'
  | .parens => literal .parens '(' ')'
  | .requestEnd =>
    { label := .requestEnd
      blanks := .ignore
      entries := [('>', goTo .outputRedirect)]
      otherwise := .fail .unexpectedCharacter }
  | .outputRedirect =>
    { label := .outputRedirect
      entries := [('>', .forwardOnce)]
      otherwise := start .outputTarget
      onReturn := .leave
      onEnd := .fail .emptyRedirectTarget }
  | .outputTarget =>
    { label := .outputTarget
      blanks := .ignoreLeading
      onEnd := .requireContent .emptyRedirectTarget }

theorem label_state (l : Label) : (state l).label = l := by
  cases l <;> rfl

end RequestLine.Request
