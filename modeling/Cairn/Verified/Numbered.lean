import Mathlib.Data.List.Basic

/-!
# A line that numbers what is put on it

Things are put on one end of a line and numbered as they come. The other end
takes a thing by its number, and never one below the first number it has not
passed. Whatever is skipped on the way is lost, so what has been taken is what
was put on the line with some of it left out: in order, and nothing twice.
-/

namespace Cairn.Verified

universe u v

variable {α : Type u} {β : Type v}

/-- What was put on the line, what was taken off it, and the first number the
far end has not passed. -/
structure Numbered (α : Type u) where
  put : List α
  taken : List α
  next : Nat
  next_le : next ≤ put.length
  inOrder : taken.Sublist (put.take next)

namespace Numbered

/-- A line nothing was put on yet. -/
def empty : Numbered α where
  put := []
  taken := []
  next := 0
  next_le := Nat.le_refl 0
  inOrder := List.Sublist.slnil

/-- Put one thing on the line. -/
def push (line : Numbered α) (x : α) : Numbered α where
  put := line.put ++ [x]
  taken := line.taken
  next := line.next
  next_le := by
    have := line.next_le
    simp only [List.length_append, List.length_singleton]
    omega
  inOrder := by
    rw [List.take_append_of_le_length line.next_le]
    exact line.inOrder

/-- Take the thing with number `n`, and pass all up to it. -/
def pull (line : Numbered α) (n : Nat) (x : α) (hn : line.next ≤ n)
    (hx : line.put[n]? = some x) : Numbered α where
  put := line.put
  taken := line.taken ++ [x]
  next := n + 1
  next_le := by
    have := (List.getElem?_eq_some_iff.mp hx).1
    omega
  inOrder := by
    have hprefix : (line.put.take line.next).Sublist (line.put.take n) :=
      (List.take_prefix_take_left hn).sublist
    rw [List.take_add_one, hx]
    exact (line.inOrder.trans hprefix).append (List.Sublist.refl _)

@[simp] theorem put_push (line : Numbered α) (x : α) : (line.push x).put = line.put ++ [x] := rfl

@[simp] theorem taken_push (line : Numbered α) (x : α) : (line.push x).taken = line.taken := rfl

@[simp] theorem next_push (line : Numbered α) (x : α) : (line.push x).next = line.next := rfl

@[simp] theorem put_pull (line : Numbered α) (n : Nat) (x : α) (hn : line.next ≤ n)
    (hx : line.put[n]? = some x) : (line.pull n x hn hx).put = line.put := rfl

@[simp] theorem taken_pull (line : Numbered α) (n : Nat) (x : α) (hn : line.next ≤ n)
    (hx : line.put[n]? = some x) : (line.pull n x hn hx).taken = line.taken ++ [x] := rfl

@[simp] theorem next_pull (line : Numbered α) (n : Nat) (x : α) (hn : line.next ≤ n)
    (hx : line.put[n]? = some x) : (line.pull n x hn hx).next = n + 1 := rfl

/-- What was taken off the line was put on it, in that order. -/
theorem taken_sublist (line : Numbered α) : line.taken.Sublist line.put :=
  line.inOrder.trans (List.take_sublist _ _)

/-- What was taken of one kind was put on the line, in that order. -/
theorem taken_filterMap_sublist (line : Numbered α) (f : α → Option β) :
    (line.taken.filterMap f).Sublist (line.put.filterMap f) :=
  line.taken_sublist.filterMap f

end Numbered

end Cairn.Verified
