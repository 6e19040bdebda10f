/-!
# Byte offsets

Places in a line are counted in bytes of its UTF-8 form. A byte offset is a place between two
characters only if some beginning of the text has exactly that many bytes; `splitAtByte?` cuts the
text there and answers nothing for every other offset.
-/

namespace RequestLine.Text

/-- The number of bytes that `cs` takes in UTF-8. -/
def byteSize (cs : List Char) : Nat :=
  cs.foldr (fun c n => c.utf8Size + n) 0

@[simp] theorem byteSize_nil : byteSize [] = 0 := rfl

@[simp] theorem byteSize_cons (c : Char) (cs : List Char) :
    byteSize (c :: cs) = c.utf8Size + byteSize cs := rfl

@[simp] theorem byteSize_append (cs ds : List Char) :
    byteSize (cs ++ ds) = byteSize cs + byteSize ds := by
  induction cs with
  | nil => simp
  | cons c cs ih => rw [List.cons_append, byteSize_cons, ih, byteSize_cons, Nat.add_assoc]

theorem byteSize_eq_utf8ByteSize (cs : List Char) :
    byteSize cs = (String.ofList cs).utf8ByteSize := by
  induction cs with
  | nil => simp
  | cons c cs ih =>
    rw [byteSize_cons, ih, String.ofList_cons, String.utf8ByteSize_append,
      String.utf8ByteSize_singleton]

theorem byteSize_toList (s : String) : byteSize s.toList = s.utf8ByteSize := by
  rw [byteSize_eq_utf8ByteSize, String.ofList_toList]

/-- The beginning of `cs` that takes `n` bytes, and the rest; nothing if `n` is past the end or
inside a character. -/
def splitAtByte? : Nat → List Char → Option (List Char × List Char)
  | 0, cs => some ([], cs)
  | _ + 1, [] => none
  | n + 1, c :: cs =>
    if c.utf8Size ≤ n + 1 then
      (splitAtByte? (n + 1 - c.utf8Size) cs).map fun (before, after) => (c :: before, after)
    else none

theorem splitAtByte?_byteSize_append (cs ds : List Char) :
    splitAtByte? (byteSize cs) (cs ++ ds) = some (cs, ds) := by
  induction cs with
  | nil => simp [splitAtByte?]
  | cons c cs ih =>
    obtain ⟨n, hn⟩ : ∃ n, c.utf8Size + byteSize cs = n + 1 :=
      ⟨c.utf8Size + byteSize cs - 1, by have := c.utf8Size_pos; omega⟩
    have hrest : n + 1 - c.utf8Size = byteSize cs := by omega
    simp only [byteSize_cons, List.cons_append, hn, splitAtByte?, hrest, ih, Option.map_some]
    rw [if_pos (by omega)]

theorem eq_append_of_splitAtByte? {n : Nat} {cs before after : List Char}
    (h : splitAtByte? n cs = some (before, after)) :
    cs = before ++ after ∧ n = byteSize before := by
  fun_induction splitAtByte? n cs generalizing before after with
  | case1 cs =>
    obtain ⟨rfl, rfl⟩ := Prod.mk.inj (Option.some.inj h)
    exact ⟨rfl, rfl⟩
  | case2 n => simp at h
  | case3 n c cs hc ih =>
    obtain ⟨⟨b, a⟩, hb, he⟩ := Option.map_eq_some_iff.1 h
    obtain ⟨rfl, rfl⟩ := Prod.mk.inj he
    obtain ⟨hcs, hn⟩ := ih hb
    exact ⟨by rw [hcs]; rfl, by rw [byteSize_cons, ← hn]; omega⟩
  | case4 n c cs hc => simp at h

/-- The offsets at which a text can be cut are those of its beginnings. -/
theorem splitAtByte?_eq_some_iff {n : Nat} {cs before after : List Char} :
    splitAtByte? n cs = some (before, after) ↔ cs = before ++ after ∧ n = byteSize before := by
  refine ⟨eq_append_of_splitAtByte?, ?_⟩
  rintro ⟨rfl, rfl⟩
  exact splitAtByte?_byteSize_append before after

/-- The number of characters that stand before the byte offset `n`. -/
def column? (n : Nat) (cs : List Char) : Option Nat :=
  (splitAtByte? n cs).map fun (before, _) => before.length

end RequestLine.Text
