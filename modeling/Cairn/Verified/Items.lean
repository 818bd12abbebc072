import Cairn.Verified.Checks
import Mathlib.Data.List.Forall2

/-!
# Reading a list item by item

A list is read by reading each of its items; the first that cannot be read
fails the list. What was written item by item is read back, and is written
again as it was where every item is.
-/

namespace Cairn.Verified

universe u v w

variable {ε : Type u} {α : Type w} {β : Type v}

variable {xs : List α} {ys : List β}

/-- A list of items is read item by item. -/
theorem mapM_eq_ok_iff {f : α → Except ε β} :
    xs.mapM f = .ok ys ↔ List.Forall₂ (fun x y => f x = .ok y) xs ys := by
  induction xs generalizing ys with
  | nil =>
    rw [List.mapM_nil, List.forall₂_nil_left_iff]
    constructor
    · intro h
      cases h
      rfl
    · rintro rfl
      rfl
  | cons x xs ih =>
    rw [List.mapM_cons, List.forall₂_cons_left_iff]
    simp only [bind_eq_ok, ih]
    constructor
    · rintro ⟨y, hy, ys, hys, hcons⟩
      cases hcons
      exact ⟨y, ys, hy, hys, rfl⟩
    · rintro ⟨y, ys, hy, hys, rfl⟩
      exact ⟨y, hy, ys, hys, rfl⟩

theorem mapM_eq_ok_map {f : α → Except ε β} {g : α → β}
    (h : ∀ x ∈ xs, f x = .ok (g x)) : xs.mapM f = .ok (xs.map g) := by
  rw [mapM_eq_ok_iff, List.forall₂_map_right_iff]
  exact List.forall₂_same.mpr h

/-- What was written item by item is read back. -/
theorem mapM_map_eq_ok {read : α → Except ε β} {write : β → α}
    (h : ∀ y ∈ ys, read (write y) = .ok y) : (ys.map write).mapM read = .ok ys := by
  rw [mapM_eq_ok_iff, List.forall₂_map_left_iff]
  exact List.forall₂_same.mpr h

/-- A list is written back as it was read exactly if every item is. -/
theorem map_eq_iff_of_mapM {read : α → Except ε β} {write : β → α} {bare : α → Prop}
    (h : ∀ x y, read x = .ok y → (write y = x ↔ bare x))
    (hread : xs.mapM read = .ok ys) : ys.map write = xs ↔ ∀ x ∈ xs, bare x := by
  rw [mapM_eq_ok_iff] at hread
  induction hread with
  | nil => simp
  | cons hxy _ ih =>
    rw [List.map_cons, List.cons.injEq, h _ _ hxy, ih, List.forall_mem_cons]

end Cairn.Verified
