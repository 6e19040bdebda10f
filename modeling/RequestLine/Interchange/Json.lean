import RequestLine.Interchange.Value
import RequestLine.Text.Blank

/-!
# Interchange values as JSON texts

The reader keeps apart what JSON's grammar keeps apart: a number is an integer only if it is written
with neither a fraction nor an exponent, and a minus sign before a zero makes it none either. Of two
parts of a record with the same key the last counts.

Each bracket that opens a list or a record is closed again, and each further item stands behind a
comma, so the length of a text bounds how deep the reader calls itself.
-/

namespace RequestLine.Json

/-! ## Reading -/

/-- The text without the blanks at its beginning. -/
def skip (cs : List Char) : List Char :=
  cs.dropWhile Text.isPlainBlank

/-- `cs` without the word `w` at its beginning. -/
def afterWord? (w : String) (cs : List Char) : Option (List Char) :=
  if w.toList.isPrefixOf cs then some (cs.drop w.length) else none

def hexDigit? (c : Char) : Option Nat :=
  if c.isDigit then some (c.toNat - '0'.toNat)
  else if 'a' ≤ c && c ≤ 'f' then some (c.toNat - 'a'.toNat + 10)
  else if 'A' ≤ c && c ≤ 'F' then some (c.toNat - 'A'.toNat + 10)
  else none

/-- The number of four hexadecimal digits. -/
def hex4? (a b c d : Char) : Option Nat := do
  return 4096 * (← hexDigit? a) + 256 * (← hexDigit? b) + 16 * (← hexDigit? c) + (← hexDigit? d)

/-- The character that a backslash and `c` stand for. -/
def unescape? (c : Char) : Option Char :=
  [('"', '"'), ('\\', '\\'), ('/', '/'), ('b', '\x08'), ('f', '\x0c'), ('n', '\n'), ('r', '\r'),
    ('t', '\t')].lookup c

/-- The code units of a text up to its closing quote, and what follows the quote. A unit is a code
point or one half of a surrogate pair. -/
def readUnits : List Char → Option (List Nat × List Char)
  | [] => none
  | '"' :: rest => some ([], rest)
  | '\\' :: 'u' :: a :: b :: c :: d :: rest => do
    let unit ← hex4? a b c d
    let (units, rest) ← readUnits rest
    return (unit :: units, rest)
  | '\\' :: c :: rest => do
    let c ← unescape? c
    let (units, rest) ← readUnits rest
    return (c.toNat :: units, rest)
  | c :: rest =>
    if c.toNat < 0x20 || c = '\\' then none
    else do
      let (units, rest) ← readUnits rest
      return (c.toNat :: units, rest)

/-- The characters of a list of code units; nothing if one half of a surrogate pair lacks the
other. -/
def charsOfUnits? : List Nat → Option (List Char)
  | [] => some []
  | high :: units =>
    if 0xD800 ≤ high && high < 0xDC00 then
      match units with
      | low :: units =>
        if 0xDC00 ≤ low && low < 0xE000 then do
          let c := Char.ofNat (0x10000 + 0x400 * (high - 0xD800) + (low - 0xDC00))
          return c :: (← charsOfUnits? units)
        else none
      | [] => none
    else if 0xDC00 ≤ high && high < 0xE000 then none
    else do return Char.ofNat high :: (← charsOfUnits? units)

/-- A text after its opening quote. -/
def readText (cs : List Char) : Option (String × List Char) := do
  let (units, rest) ← readUnits cs
  return (String.ofList (← charsOfUnits? units), rest)

/-- The number that decimal digits denote. -/
def digitsValue (ds : List Char) : Nat :=
  ds.foldl (fun n c => 10 * n + (c.toNat - '0'.toNat)) 0

/-- The decimal digits at the beginning of `cs`, at least one, and what follows them. -/
def readDigits (cs : List Char) : Option (List Char × List Char) :=
  match cs.takeWhile Char.isDigit with
  | [] => none
  | ds => some (ds, cs.dropWhile Char.isDigit)

/-- The digits of a fraction, if one follows. -/
def readFraction : List Char → Option (Option (List Char) × List Char)
  | '.' :: cs => do
    let (ds, rest) ← readDigits cs
    return (some ds, rest)
  | cs => some (none, cs)

/-- An exponent, if one follows. -/
def readExponent : List Char → Option (Option Int × List Char)
  | 'e' :: cs | 'E' :: cs => do
    let (negative, cs) := match cs with
      | '-' :: cs => (true, cs)
      | '+' :: cs => (false, cs)
      | cs => (false, cs)
    let (ds, rest) ← readDigits cs
    let n : Int := digitsValue ds
    return (some (if negative then -n else n), rest)
  | cs => some (none, cs)

/-- A number without its sign. -/
def readNumber (negative : Bool) (cs : List Char) : Option (Value × List Char) := do
  let (whole, cs) ← readDigits cs
  if whole.head? = some '0' && 1 < whole.length then none
  else
    let (fraction, cs) ← readFraction cs
    let (exponent, cs) ← readExponent cs
    let places := fraction.getD []
    let size : Int := digitsValue (whole ++ places)
    let mantissa := if negative then -size else size
    if fraction.isNone && exponent.isNone && !(negative && size = 0) then
      return (.integer mantissa, cs)
    else return (.decimal mantissa (exponent.getD 0 - places.length), cs)

/-- The parts of a record with one more at the end, which replaces one with the same key. -/
def addPart (parts : List (String × Value)) (key : String) (v : Value) : List (String × Value) :=
  parts.filter (·.1 ≠ key) ++ [(key, v)]

mutual

/-- The value at the beginning of a text, and what follows it. -/
def readValue : Nat → List Char → Option (Value × List Char)
  | 0, _ => none
  | fuel + 1, cs =>
    match skip cs with
    | '"' :: cs => (readText cs).map fun (s, rest) => (.text s, rest)
    | '[' :: cs =>
      match skip cs with
      | ']' :: rest => some (.list [], rest)
      | cs => (readItems fuel cs).map fun (items, rest) => (.list items, rest)
    | '{' :: cs =>
      match skip cs with
      | '}' :: rest => some (.record [], rest)
      | cs => (readParts fuel [] cs).map fun (parts, rest) => (.record parts, rest)
    | '-' :: cs => readNumber true cs
    | cs =>
      if let some rest := afterWord? "null" cs then some (.null, rest)
      else if let some rest := afterWord? "true" cs then some (.bool true, rest)
      else if let some rest := afterWord? "false" cs then some (.bool false, rest)
      else readNumber false cs

/-- The items of a list up to its closing bracket. -/
def readItems : Nat → List Char → Option (List Value × List Char)
  | 0, _ => none
  | fuel + 1, cs => do
    let (v, rest) ← readValue fuel cs
    match skip rest with
    | ',' :: rest => do
      let (vs, rest) ← readItems fuel rest
      return (v :: vs, rest)
    | ']' :: rest => return ([v], rest)
    | _ => none

/-- The parts of a record up to its closing brace, after the parts read before. -/
def readParts : Nat → List (String × Value) → List Char →
    Option (List (String × Value) × List Char)
  | 0, _, _ => none
  | fuel + 1, before, cs =>
    match skip cs with
    | '"' :: cs => do
      let (key, rest) ← readText cs
      match skip rest with
      | ':' :: rest => do
        let (v, rest) ← readValue fuel rest
        match skip rest with
        | ',' :: rest => readParts fuel (addPart before key v) rest
        | '}' :: rest => return (addPart before key v, rest)
        | _ => none
      | _ => none
    | _ => none

end

/-! ## Writing -/

/-- A character between the quotes of a text. -/
def escape (c : Char) : List Char :=
  if c = '"' || c = '\\' then ['\\', c]
  else if c.toNat < 0x20 then
    ['\\', 'u', '0', '0', Nat.digitChar (c.toNat / 16), Nat.digitChar (c.toNat % 16)]
  else [c]

/-- `out` followed by a text between quotes. -/
def writeText (out : String) (s : String) : String :=
  (s.toList.foldl (fun out c => (escape c).foldl String.push out) (out.push '"')).push '"'

mutual

/-- `out` followed by a value. -/
def writeValue (out : String) : Value → String
  | .null => out ++ "null"
  | .bool b => out ++ (if b then "true" else "false")
  | .integer n => out ++ toString n
  | .decimal mantissa exponent => out ++ toString mantissa ++ "e" ++ toString exponent
  | .text s => writeText out s
  | .list [] => out ++ "[]"
  | .list (v :: vs) => (writeItems (writeValue (out.push '[') v) vs).push ']'
  | .record [] => (out.push '{').push '}'
  | .record ((key, v) :: parts) =>
    (writeParts (writeValue ((writeText (out.push '{') key).push ':') v) parts).push '}'

/-- `out` followed by further items of a list. -/
def writeItems (out : String) : List Value → String
  | [] => out
  | v :: vs => writeItems (writeValue (out.push ',') v) vs

/-- `out` followed by further parts of a record. -/
def writeParts (out : String) : List (String × Value) → String
  | [] => out
  | (key, v) :: parts =>
    writeParts (writeValue ((writeText (out.push ',') key).push ':') v) parts

end

end RequestLine.Json

namespace RequestLine.Value

/-- The value that a JSON text denotes. -/
def ofJson? (s : String) : Option Value := do
  let (v, rest) ← Json.readValue (s.toList.length + 1) s.toList
  if (Json.skip rest).isEmpty then some v else none

/-- The value as a JSON text. -/
def toJson (v : Value) : String :=
  Json.writeValue "" v

end RequestLine.Value
