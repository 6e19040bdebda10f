/-!
# Interchange values

Events and requests are exchanged as trees of plain values. The readers of this module take such
trees apart and answer nothing where the tree has another shape.

A record with known parts may have further ones, which are not looked at. It may also be given as
the list of all its parts in order.
-/

namespace RequestLine

inductive Value where
  | null
  | bool (b : Bool)
  | integer (n : Int)
  /-- A number that is not written as an integer: the mantissa times a power of ten. -/
  | decimal (mantissa exponent : Int)
  | text (s : String)
  | list (items : List Value)
  | record (parts : List (String × Value))
  deriving Inhabited, Repr

namespace Value

/-! ## Writing -/

def ofNat (n : Nat) : Value :=
  integer n

def ofChar (c : Char) : Value :=
  text c.toString

/-- A value that may be missing. -/
def ofOption {α : Type} (write : α → Value) : Option α → Value
  | none => null
  | some a => write a

def ofList {α : Type} (write : α → Value) (as : List α) : Value :=
  list (as.map write)

/-! ## Reading -/

/-- The part of a record with the given key. -/
def get? (key : String) : Value → Option Value
  | record parts => parts.lookup key
  | _ => none

def bool? : Value → Option Bool
  | bool b => some b
  | _ => none

def text? : Value → Option String
  | text s => some s
  | _ => none

/-- A text of one character. -/
def char? : Value → Option Char
  | text s =>
    match s.toList with
    | [c] => some c
    | _ => none
  | _ => none

/-- An offset: a whole number of 64 bits. -/
def offset? : Value → Option Nat
  | integer (.ofNat n) => if n < 0x10000000000000000 then some n else none
  | _ => none

/-- A word out of a fixed set. It may also stand as the only part of a record, without content. -/
def word? : Value → Option String
  | text s => some s
  | record [(s, null)] => some s
  | _ => none

/-- A list of values that all can be read. -/
def list? {α : Type} (read : Value → Option α) : Value → Option (List α)
  | list items => items.mapM read
  | _ => none

/-- The parts of a record with the given keys. -/
def parts? (keys : List String) : Value → Option (List (Option Value))
  | record parts => some (keys.map fun key => parts.lookup key)
  | list items => if items.length = keys.length then some (items.map some) else none
  | _ => none

/-- A part that must be there. -/
def required {α : Type} (read : Value → Option α) (part : Option Value) : Option α :=
  part.bind read

/-- A part that may be missing or null. -/
def optional {α : Type} (read : Value → Option α) : Option Value → Option (Option α)
  | none | some null => some none
  | some v => (read v).map some

end Value

end RequestLine
