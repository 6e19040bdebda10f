import Mathlib.Data.List.Infix
import RequestLine.Request.Resolve

/-!
# How far a walk reaches back

A step to the parent takes the last segment of a path away. Every other step changes that segment at
most, or adds one behind it (`Step.walk_cases`). So a walk with `k` steps to the parent may change
the last `k + 1` segments of a path and no other, whatever it does in between
(`Reaches.foldl_walk`). Nor can it take more than `k` segments away, or add more than it has nodes
(`resolve_keeps_the_front`).

As in `Step.walk`, the paths are read from the end.
-/

namespace RequestLine

namespace Step

/-- A step takes the last segment away, changes nothing but the last segment, or adds one. -/
theorem walk_cases (s : Step) (path : List Segment) :
    s = parent ∧ s.walk path = path.tail
      ∨ (s.walk path).tail = path.tail ∧ (s.walk path).length = path.length
      ∨ ∃ t, s = node t ∧ s.walk path = t :: path := by
  cases s with
  | node t =>
    cases path with
    | nil => exact .inr (.inr ⟨t, rfl, rfl⟩)
    | cons last path =>
      simp only [walk, Segment.join]
      split
      · exact .inr (.inl ⟨rfl, rfl⟩)
      · exact .inr (.inr ⟨t, rfl, rfl⟩)
  | parent => exact .inl ⟨rfl, rfl⟩
  | current => exact .inr (.inl ⟨rfl, rfl⟩)
  | nodeType => cases path <;> exact .inr (.inl ⟨rfl, rfl⟩)

theorem length_walk_le (s : Step) (path : List Segment) :
    (s.walk path).length ≤ path.length + s.segment?.toList.length := by
  rcases s.walk_cases path with ⟨-, htail⟩ | ⟨-, hlength⟩ | ⟨t, rfl, hpush⟩
  · rw [htail, List.length_tail]
    omega
  · rw [hlength]
    exact Nat.le_add_right _ _
  · rw [hpush]
    exact le_rfl

end Step

/-- What a walk with `k` steps to the parent can make of the path `origin`: but for the last `k + 1`
segments it is still there, in front of the last segment, and no more than `k` segments are gone. -/
structure Reaches (origin : List Segment) (k : Nat) (path : List Segment) : Prop where
  front : origin.drop (k + 1) <:+ path.tail
  length_le : origin.length ≤ path.length + k

namespace Reaches

variable {origin path : List Segment} {k : Nat} {s : Step}

theorem refl (origin : List Segment) : Reaches origin 0 origin where
  front := by rw [List.drop_one]
  length_le := le_rfl

theorem parent (h : Reaches origin k path) : Reaches origin (k + 1) (Step.parent.walk path) := by
  constructor
  · show origin.drop (k + 1 + 1) <:+ path.tail.tail
    rw [← List.tail_drop]
    obtain ⟨_ | ⟨last, front⟩, hfront⟩ := h.front
    · rw [← hfront, List.nil_append]
    · rw [← hfront, List.cons_append, List.tail_cons]
      exact (List.tail_suffix _).trans (List.suffix_append front _)
  · have hlength := h.length_le
    simp only [Step.walk, List.length_tail]
    omega

theorem walk (h : Reaches origin k path) (hs : s ≠ .parent) : Reaches origin k (s.walk path) := by
  obtain ⟨hfront, hlength⟩ := h
  rcases s.walk_cases path with ⟨rfl, -⟩ | ⟨htail, hsame⟩ | ⟨t, -, hpush⟩
  · exact absurd rfl hs
  · exact ⟨by rwa [htail], by rwa [hsame]⟩
  · rw [hpush]
    refine ⟨hfront.trans (List.tail_suffix path), ?_⟩
    rw [List.length_cons]
    omega

/-- Any number of steps in any order. -/
theorem foldl_walk (h : Reaches origin k path) (steps : List Step) :
    Reaches origin (k + steps.count .parent) (steps.foldl (fun path s => s.walk path) path) := by
  induction steps generalizing k path with
  | nil => exact h
  | cons s steps ih =>
    by_cases hs : s = .parent
    · subst hs
      rw [List.count_cons_self, Nat.add_comm (steps.count _), ← Nat.add_assoc]
      exact ih h.parent
    · rw [List.count_cons_of_ne hs]
      exact ih (h.walk hs)

end Reaches

theorem length_foldl_walk_le (steps : List Step) (path : List Segment) :
    (steps.foldl (fun path s => s.walk path) path).length
      ≤ path.length + (steps.filterMap Step.segment?).length := by
  induction steps generalizing path with
  | nil => exact le_rfl
  | cons s steps ih =>
    have hstep := s.length_walk_le path
    have hsteps := ih (s.walk path)
    rw [List.foldl_cons, List.filterMap_cons]
    rcases hs : s.segment? with _ | t
    · simp only [hs, Option.toList_none, List.length_nil] at hstep
      show _ ≤ path.length + (steps.filterMap Step.segment?).length
      omega
    · simp only [hs, Option.toList_some, List.length_singleton] at hstep
      simp only [List.length_cons]
      omega

namespace Request

variable {r : Request}

theorem resolve_absolute (h : r.absolute = true) (current other : List Segment) :
    r.resolve current = r.resolve other := by
  simp only [resolve, h, if_true]

theorem reverse_resolve_relative (h : r.absolute = false) (current : List Segment) :
    (r.resolve current).reverse
      = r.address.foldl (fun path s => s.walk path) current.reverse := by
  simp [resolve, h]

/-- The front of the current path that a relative address cannot reach. -/
theorem take_prefix_resolve (h : r.absolute = false) (current : List Segment) :
    current.take (current.length - r.address.count .parent - 1) <+: r.resolve current := by
  have hwalk := (Reaches.refl current.reverse).foldl_walk r.address
  rw [← reverse_resolve_relative h, Nat.zero_add] at hwalk
  have hfront := hwalk.front.trans (List.tail_suffix _)
  rwa [List.drop_reverse, List.reverse_suffix, ← Nat.sub_sub] at hfront

theorem length_resolve (h : r.absolute = false) (current : List Segment) :
    current.length - r.address.count .parent ≤ (r.resolve current).length
      ∧ (r.resolve current).length
        ≤ current.length + (r.address.filterMap Step.segment?).length := by
  have hwalk := (Reaches.refl current.reverse).foldl_walk r.address
  have hnodes := length_foldl_walk_le r.address current.reverse
  rw [← reverse_resolve_relative h] at hwalk hnodes
  have hparents := hwalk.length_le
  simp only [List.length_reverse, Nat.zero_add] at hparents hnodes
  exact ⟨by omega, hnodes⟩

/-- A step to a node with a name is undone by a step to its parent. -/
theorem resolve_node_parent {s : Segment} (hs : s.name ≠ none) (r : Request)
    (current : List Segment) :
    resolve { r with address := r.address ++ [.node s, .parent] } current = r.resolve current := by
  have hback : ∀ path, Step.parent.walk ((Step.node s).walk path) = path := by
    intro path
    cases path with
    | nil => rfl
    | cons last path => simp [Step.walk, Segment.join, hs]
  simp only [resolve, List.foldl_append, List.foldl_cons, List.foldl_nil, hback]

end Request

/-- An absolute address does not depend on the current path. A relative one with `k` steps to the
parent leaves all but the last `k + 1` segments of it in place, takes no more than `k` away and adds
no more than it has nodes. Either way a node with a name and the step back lead nowhere. -/
theorem resolve_keeps_the_front (r : Request) (current : List Segment) :
    (r.absolute = true → ∀ other, r.resolve current = r.resolve other)
    ∧ (r.absolute = false →
        current.take (current.length - r.address.count .parent - 1) <+: r.resolve current
        ∧ current.length - r.address.count .parent ≤ (r.resolve current).length
        ∧ (r.resolve current).length
          ≤ current.length + (r.address.filterMap Step.segment?).length)
    ∧ ∀ s : Segment, s.name ≠ none →
      Request.resolve { r with address := r.address ++ [.node s, .parent] } current
        = r.resolve current :=
  ⟨fun h => Request.resolve_absolute h current,
    fun h => ⟨Request.take_prefix_resolve h current, Request.length_resolve h current⟩,
    fun _ hs => Request.resolve_node_parent hs r current⟩

/-- The parent gets a new name: of three segments the first is left as it is, and the second is
not. -/
theorem resolve_keeps_first_segment :
    let current : List Segment := [⟨"a", some "b"⟩, ⟨"x", some "y"⟩, ⟨"z", none⟩]
    let r : Request := { address := [.parent, .nodeType, .node ⟨"e", none⟩] }
    let root : Request := { absolute := true, address := [.node ⟨"a", none⟩, .parent, .parent] }
    [⟨"a", some "b"⟩] <+: r.resolve current ∧ 2 ≤ (r.resolve current).length
      ∧ (r.resolve current).length ≤ 4 ∧ r.resolve current = [⟨"a", some "b"⟩, ⟨"x", some "e"⟩]
      ∧ (∀ other, root.resolve current = root.resolve other)
      ∧ Request.resolve { r with address := r.address ++ [.node ⟨"f", some ""⟩, .parent] } current
        = r.resolve current := by
  intro current r root
  obtain ⟨-, hrelative, hback⟩ := resolve_keeps_the_front r current
  obtain ⟨hfront, hparents, hnodes⟩ := hrelative rfl
  exact ⟨hfront, hparents, hnodes, by decide, (resolve_keeps_the_front root current).1 rfl,
    hback ⟨"f", some ""⟩ (Option.some_ne_none "")⟩

end RequestLine
