/-!
# Blank characters

A line is read with one of two notions of blank: the four characters a terminal line holds, or
all characters with the Unicode property `White_Space`. The first class is part of the second.

Trimming is relative to a class of characters, so the functions here take the class as a test.
-/

namespace RequestLine.Text

/-- Space, tab, line feed and carriage return. -/
def isPlainBlank (c : Char) : Bool :=
  c = ' ' || c = '\t' || c = '\n' || c = '\r'

/-- The closed ranges of code points with the property `White_Space`. -/
def whiteSpaceRanges : List (Nat × Nat) :=
  [(0x9, 0xD), (0x20, 0x20), (0x85, 0x85), (0xA0, 0xA0), (0x1680, 0x1680), (0x2000, 0x200A),
    (0x2028, 0x2029), (0x202F, 0x202F), (0x205F, 0x205F), (0x3000, 0x3000)]

/-- The code point of `c` lies in one of the closed ranges. -/
def inRanges (ranges : List (Nat × Nat)) (c : Char) : Bool :=
  ranges.any fun r => r.1 ≤ c.toNat && c.toNat ≤ r.2

/-- The characters with the Unicode property `White_Space`. -/
def isUnicodeBlank (c : Char) : Bool :=
  inRanges whiteSpaceRanges c

theorem isUnicodeBlank_of_isPlainBlank {c : Char} (h : isPlainBlank c = true) :
    isUnicodeBlank c = true := by
  simp only [isPlainBlank, Bool.or_eq_true, decide_eq_true_eq] at h
  rcases h with ((rfl | rfl) | rfl) | rfl <;> rfl

/-- `cs` without its longest beginning in the class `p`. -/
def trimStart (p : Char → Bool) (cs : List Char) : List Char :=
  cs.dropWhile p

/-- `cs` without its longest ending in the class `p`. -/
def trimEnd (p : Char → Bool) (cs : List Char) : List Char :=
  (cs.reverse.dropWhile p).reverse

/-- `cs` trimmed at both ends. -/
def trim (p : Char → Bool) (cs : List Char) : List Char :=
  trimEnd p (trimStart p cs)

end RequestLine.Text
